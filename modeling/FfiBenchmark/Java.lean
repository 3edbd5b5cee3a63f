/-
What the repository uses of the Java platform: `int` and `long` values,
the exceptions that are thrown, native memory segments and their slices,
and array growth.

A `long` is a 64-bit word read as signed (`BitVec.toInt`), so `+`, `-` and
`&` wrap as Java's do. An `int` is an integer, wrapped by `int32` where an
expression could leave the 32-bit range.
-/
import FfiBenchmark.Lib.Loop
import Mathlib.Algebra.Group.Int.Defs
import Mathlib.Algebra.Group.Nat.Defs
import Mathlib.Data.List.Basic

namespace FfiBenchmark

/-- A Java `long`. -/
abbrev Long := BitVec 64

/-- The `int` an integer wraps to. -/
def int32 (x : Int) : Int := x.bmod (2 ^ 32)

theorem int32_eq {x : Int} (h₁ : -2 ^ 31 ≤ x) (h₂ : x < 2 ^ 31) : int32 x = x := by
  unfold int32
  rw [Int.bmod_eq_of_le] <;> omega

theorem toInt_eq_toNat {x : Long} (h : 0 ≤ x.toInt) : x.toInt = x.toNat :=
  BitVec.toInt_eq_toNat_of_lt (BitVec.toInt_pos_iff.mp h)

/-- The exceptions of the modelled code, with their messages where the
repository writes them. -/
inductive Exn where
  | wrongThread (message : String)
  | wrongMethodType
  | illegalState (message : String)
  | illegalArgument (message : String)
  | indexOutOfBounds
  | arrayIndexOutOfBounds
  | negativeArraySize
  | outOfMemory
  | assertionError
  deriving DecidableEq, Repr

theorem ok_bind {α β : Type} (a : α) (f : α → Except Exn β) : (Except.ok a >>= f) = f a := rfl

theorem bind_eq_ok {α β : Type} {x : Except Exn α} {f : α → Except Exn β} {b : β} :
    (x >>= f) = .ok b ↔ ∃ a, x = .ok a ∧ f a = .ok b := by
  cases x with
  | ok a => simp [ok_bind]
  | error e =>
    constructor
    · intro h
      cases h
    · rintro ⟨a, ha, -⟩
      cases ha

/-- A native memory segment: a range of addresses that does not wrap. -/
structure MemorySegment where
  address : Long
  byteSize : Long
  byteSize_nonneg : 0 ≤ byteSize.toInt
  in_range : address.toNat + byteSize.toNat ≤ 2 ^ 64
  deriving DecidableEq

namespace MemorySegment

@[ext] theorem ext {a b : MemorySegment} (ha : a.address = b.address)
    (hs : a.byteSize = b.byteSize) :
    a = b := by
  cases a; cases b; simp_all

theorem byteSize_lt (seg : MemorySegment) : seg.byteSize.toNat < 2 ^ 63 := by
  have := BitVec.toInt_pos_iff.mp seg.byteSize_nonneg
  omega

theorem byteSize_toInt (seg : MemorySegment) : seg.byteSize.toInt = seg.byteSize.toNat :=
  toInt_eq_toNat seg.byteSize_nonneg

/-- The slice `[offset, offset + newSize)` is inside the segment. -/
abbrev Encloses (seg : MemorySegment) (offset newSize : Long) : Prop :=
  0 ≤ offset.toInt ∧ 0 ≤ newSize.toInt ∧ offset.toInt + newSize.toInt ≤ seg.byteSize.toInt

theorem Encloses.toNat_le {seg : MemorySegment} {offset newSize : Long}
    (h : seg.Encloses offset newSize) : offset.toNat + newSize.toNat ≤ seg.byteSize.toNat := by
  obtain ⟨ho, hn, hle⟩ := h
  rw [toInt_eq_toNat ho, toInt_eq_toNat hn, seg.byteSize_toInt] at hle
  omega

theorem Encloses.in_range {seg : MemorySegment} {offset newSize : Long}
    (h : seg.Encloses offset newSize) : (seg.address + offset).toNat + newSize.toNat ≤ 2 ^ 64 := by
  have hle := h.toNat_le
  have hseg := seg.in_range
  have hmod := Nat.mod_le (seg.address.toNat + offset.toNat) (2 ^ 64)
  rw [BitVec.toNat_add]
  omega

/-- `MemorySegment.asSlice(offset, newSize, byteAlignment)`: the bounds are
checked first, then the alignment of the slice's address. -/
def asSlice (seg : MemorySegment) (offset newSize byteAlignment : Long) :
    Except Exn MemorySegment :=
  if h : seg.Encloses offset newSize then
    if (seg.address + offset).toNat % byteAlignment.toNat = 0 then
      .ok ⟨seg.address + offset, newSize, h.2.1, h.in_range⟩
    else .error (.illegalArgument "Target offset incompatible with alignment constraint")
  else .error .indexOutOfBounds

theorem asSlice_eq_ok {seg slice : MemorySegment} {offset newSize byteAlignment : Long} :
    seg.asSlice offset newSize byteAlignment = .ok slice ↔
      seg.Encloses offset newSize ∧ byteAlignment.toNat ∣ slice.address.toNat ∧
        slice.address = seg.address + offset ∧ slice.byteSize = newSize := by
  unfold asSlice
  split
  · next h =>
    split
    · next ha =>
      simp only [Except.ok.injEq]
      constructor
      · rintro rfl
        exact ⟨h, Nat.dvd_of_mod_eq_zero ha, rfl, rfl⟩
      · intro hex
        obtain ⟨-, -, h1, h2⟩ := hex
        exact MemorySegment.ext h1.symm h2.symm
    · next ha =>
      simp only [reduceCtorEq, false_iff]
      intro hex
      obtain ⟨-, hd, h1, -⟩ := hex
      exact ha (Nat.mod_eq_zero_of_dvd (h1 ▸ hd))
  · next h =>
    simp only [reduceCtorEq, false_iff]
    exact fun h' => h h'.1

end MemorySegment

/-- `Arrays.copyOf(array, newLength)` of a `long[]`; `heap n` is whether the
VM finds room for `n` elements. -/
def copyOf (heap : Nat → Bool) (array : List Long) (newLength : Int) : Except Exn (List Long) :=
  if newLength < 0 then .error .negativeArraySize
  else if heap newLength.toNat then
    .ok (array.take newLength.toNat ++ List.replicate (newLength.toNat - array.length) 0)
  else .error .outOfMemory

/-- Doubling: it needs room, and a length that is still an `int`. -/
theorem copyOf_double (heap : Nat → Bool) {array : List Long} (hlen : array.length < 2 ^ 31) :
    copyOf heap array (int32 (array.length * 2)) =
      if 2 ^ 30 ≤ array.length then .error .negativeArraySize
      else if heap (array.length * 2) then .ok (array ++ List.replicate array.length 0)
      else .error .outOfMemory := by
  unfold copyOf
  by_cases h : 2 ^ 30 ≤ array.length
  · have hneg : int32 (array.length * 2) < 0 := by unfold int32; rw [Int.bmod]; omega
    rw [if_pos hneg, if_pos h]
  · have hint : int32 (array.length * 2) = ((array.length * 2 : Nat) : Int) := by
      rw [int32_eq] <;> omega
    rw [hint, if_neg (by omega), if_neg h, Int.toNat_natCast, List.take_of_length_le (by omega),
      show array.length * 2 - array.length = array.length by omega]

/-! ## Methods -/

/-- A method of an object with fields `σ`: a throw keeps the assignments made before it. -/
abbrev Method (σ : Type) := EStateM Exn σ

namespace Method

variable {σ α β : Type}

theorem bind_apply (x : Method σ α) (f : α → Method σ β) (s : σ) :
    (x >>= f) s = match x s with
      | .ok a s' => f a s'
      | .error e s' => .error e s' := by
  change EStateM.bind x f s = _
  unfold EStateM.bind
  cases x s <;> rfl

theorem get_apply (s : σ) : (get : Method σ σ) s = .ok s s := rfl
theorem pure_apply (a : α) (s : σ) : (pure a : Method σ α) s = .ok a s := rfl
theorem throw_apply (e : Exn) (s : σ) : (throw e : Method σ α) s = .error e s := rfl
theorem modify_apply (f : σ → σ) (s : σ) : (modify f : Method σ PUnit) s = .ok ⟨⟩ (f s) := rfl
theorem ofExcept_ok (a : α) (s : σ) :
    (MonadExcept.ofExcept (.ok a : Except Exn α) : Method σ α) s = .ok a s := rfl
theorem ofExcept_error (e : Exn) (s : σ) :
    (MonadExcept.ofExcept (.error e : Except Exn α) : Method σ α) s = .error e s := rfl

/-- The fields after a call, thrown out of or not. -/
def fields : EStateM.Result Exn σ α → σ
  | .ok _ s => s
  | .error _ s => s

@[simp] theorem fields_ok (a : α) (s : σ) : fields (.ok a s) = s := rfl
@[simp] theorem fields_error (e : Exn) (s : σ) : fields (.error e s : EStateM.Result Exn σ α) = s :=
  rfl

end Method

end FfiBenchmark
