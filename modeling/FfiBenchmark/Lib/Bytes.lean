/-
Integers as bytes, and bytes in memory.

A memory maps addresses to bytes. What is stored is loaded back
(`load_store`), also after stores that do not overlap it (`load_storeAll`), and
an integer decodes from its encoding in either byte order (`decode_encode`).
-/
import Mathlib.Algebra.Group.Nat.Defs
import Mathlib.Data.List.Basic
import Mathlib.Data.List.Pairwise

namespace Bytes

inductive Order where
  | little
  | big
  deriving DecidableEq

/-- The lowest `n` bytes of `v`, the lowest first. -/
def digits : Nat → Nat → List UInt8
  | 0, _ => []
  | n + 1, v => .ofNat v :: digits n (v / 256)

def value : List UInt8 → Nat
  | [] => 0
  | b :: bs => b.toNat + 256 * value bs

@[simp] theorem length_digits (n v : Nat) : (digits n v).length = n := by
  induction n generalizing v with
  | zero => rfl
  | succ n ih => rw [digits, List.length_cons, ih]

theorem value_digits (n v : Nat) : value (digits n v) = v % 256 ^ n := by
  induction n generalizing v with
  | zero => rw [digits, value, Nat.pow_zero, Nat.mod_one]
  | succ n ih =>
    have hbyte : (UInt8.ofNat v).toNat = v % 256 := rfl
    rw [digits, value, hbyte, ih, Nat.pow_succ', Nat.mod_mul]

/-- Bytes lowest first, in the given order. -/
def arrange : Order → List UInt8 → List UInt8
  | .little, bytes => bytes
  | .big, bytes => bytes.reverse

theorem arrange_arrange (order : Order) (bytes : List UInt8) :
    arrange order (arrange order bytes) = bytes := by
  cases order with
  | little => rfl
  | big => exact List.reverse_reverse bytes

variable {n : Nat}

def encode (order : Order) (v : BitVec (8 * n)) : List UInt8 := arrange order (digits n v.toNat)

def decode (order : Order) (n : Nat) (bytes : List UInt8) : BitVec (8 * n) :=
  .ofNat _ (value (arrange order bytes))

@[simp] theorem length_encode (order : Order) (v : BitVec (8 * n)) :
    (encode order v).length = n := by
  cases order <;> simp [encode, arrange]

theorem decode_encode (order : Order) (v : BitVec (8 * n)) :
    decode order n (encode order v) = v := by
  have hlt : v.toNat < 256 ^ n := by
    have hpow : 256 ^ n = 2 ^ (8 * n) := by rw [Nat.pow_mul]
    rw [hpow]
    exact v.isLt
  rw [decode, encode, arrange_arrange, value_digits, Nat.mod_eq_of_lt hlt, BitVec.ofNat_toNat,
    BitVec.setWidth_eq]

/-! ## Memory -/

abbrev Memory := Nat → UInt8

def load (m : Memory) (a n : Nat) : List UInt8 := (List.range n).map fun i => m (a + i)

def store (m : Memory) (a : Nat) (bytes : List UInt8) : Memory :=
  fun x => if a ≤ x then (bytes[x - a]?).getD (m x) else m x

@[simp] theorem length_load (m : Memory) (a n : Nat) : (load m a n).length = n := by simp [load]

theorem load_congr {m m' : Memory} {a n : Nat} (h : ∀ i < n, m (a + i) = m' (a + i)) :
    load m a n = load m' a n :=
  List.map_congr_left fun i hi => h i (List.mem_range.mp hi)

/-- The bytes in the middle of what is loaded. -/
theorem load_middle {m : Memory} {a n : Nat} (before bytes after : List UInt8)
    (h : load m a n = before ++ bytes ++ after) :
    load m (a + before.length) bytes.length = bytes := by
  have hlen : n = before.length + bytes.length + after.length := by
    have := congrArg List.length h
    simpa [Nat.add_assoc] using this
  refine List.ext_getElem (by simp) fun i hi _ => ?_
  have hi : i < bytes.length := by simpa using hi
  have hbyte : (load m a n)[before.length + i]? = some bytes[i] := by
    rw [h, List.append_assoc, List.getElem?_append_right (by omega), Nat.add_sub_cancel_left,
      List.getElem?_append_left hi, List.getElem?_eq_getElem hi]
  rw [load, List.getElem?_map, List.getElem?_range (by omega), Option.map_some,
    Option.some.injEq] at hbyte
  simp only [load, List.getElem_map, List.getElem_range]
  rw [← hbyte, Nat.add_assoc]

theorem store_outside (m : Memory) {a x : Nat} {bytes : List UInt8}
    (h : x < a ∨ a + bytes.length ≤ x) :
    store m a bytes x = m x := by
  unfold store
  split
  · rw [List.getElem?_eq_none (by omega)]
    rfl
  · rfl

theorem load_store (m : Memory) (a : Nat) (bytes : List UInt8) :
    load (store m a bytes) a bytes.length = bytes := by
  refine List.ext_getElem (by simp) fun i hi _ => ?_
  have hi : i < bytes.length := by simpa using hi
  simp [load, store, hi]

/-- Bytes that are stored elsewhere. -/
theorem load_store_apart {m : Memory} {a n b : Nat} {bytes : List UInt8}
    (h : ∀ i < n, a + i < b ∨ b + bytes.length ≤ a + i) : load (store m b bytes) a n = load m a n :=
  load_congr fun i hi => store_outside m (h i hi)

/-- `bytes` in the place of some of `contents`, from `offset` on. -/
def splice (contents : List UInt8) (offset : Nat) (bytes : List UInt8) : List UInt8 :=
  contents.take offset ++ bytes ++ contents.drop (offset + bytes.length)

theorem load_store_within {m : Memory} {a n offset : Nat} {bytes : List UInt8}
    (h : offset + bytes.length ≤ n) :
    load (store m (a + offset) bytes) a n = splice (load m a n) offset bytes := by
  refine List.ext_getElem ?_ fun i hi hi' => ?_
  · simp [splice]
    omega
  · simp only [splice, load, store, List.getElem_map, List.getElem_range, List.append_assoc]
    simp only [length_load] at hi
    rcases Nat.lt_or_ge i offset with hlt | hge
    · rw [List.getElem_append_left (by simp; omega)]
      simp [show ¬ a + offset ≤ a + i by omega]
    · rw [List.getElem_append_right (by simp; omega)]
      simp only [List.length_take, List.length_map, List.length_range,
        Nat.min_eq_left (show offset ≤ n by omega)]
      rw [if_pos (by omega), show a + i - (a + offset) = i - offset by omega]
      rcases Nat.lt_or_ge (i - offset) bytes.length with hin | hout
      · rw [List.getElem_append_left hin, List.getElem?_eq_getElem hin, Option.getD_some]
      · rw [List.getElem_append_right hout, List.getElem?_eq_none hout, Option.getD_none]
        simp only [List.getElem_drop, List.getElem_map, List.getElem_range]
        congr 1
        omega

/-- Stores one after the other: addresses, with the bytes that go there. -/
def storeAll (m : Memory) : List (Nat × List UInt8) → Memory
  | [] => m
  | (a, bytes) :: blocks => storeAll (store m a bytes) blocks

theorem storeAll_outside {m : Memory} {blocks : List (Nat × List UInt8)} {x : Nat}
    (h : ∀ b ∈ blocks, x < b.1 ∨ b.1 + b.2.length ≤ x) : storeAll m blocks x = m x := by
  induction blocks generalizing m with
  | nil => rfl
  | cons b blocks ih =>
    obtain ⟨a, bytes⟩ := b
    rw [storeAll, ih fun b hb => h b (List.mem_cons_of_mem _ hb),
      store_outside m (h (a, bytes) (by simp))]

theorem load_storeAll_disjoint {m : Memory} {blocks : List (Nat × List UInt8)} {a n : Nat}
    (h : ∀ b ∈ blocks, a + n ≤ b.1 ∨ b.1 + b.2.length ≤ a) :
    load (storeAll m blocks) a n = load m a n :=
  load_congr fun i hi => storeAll_outside fun b hb => by have := h b hb; omega

/-- Of blocks that do not overlap, each is loaded back. -/
theorem load_storeAll {m : Memory} {blocks : List (Nat × List UInt8)}
    (h : blocks.Pairwise fun b b' => b.1 + b.2.length ≤ b'.1) :
    ∀ b ∈ blocks, load (storeAll m blocks) b.1 b.2.length = b.2 := by
  induction blocks generalizing m with
  | nil => simp
  | cons b blocks ih =>
    obtain ⟨a, bytes⟩ := b
    obtain ⟨hfirst, hrest⟩ := List.pairwise_cons.mp h
    intro b' hb'
    rw [List.mem_cons] at hb'
    rcases hb' with rfl | hb'
    · rw [storeAll, load_storeAll_disjoint fun b hb => .inl (hfirst b hb), load_store]
    · exact ih hrest b' hb'

end Bytes
