/-
`ffi_benchmark_get_string` of `library.c` against `testStr` of
`benchmark.StringConvertBenchmark`.

The C function makes the string of a length once and keeps it in
`get_string_table`. The table has 4096 slots, for the lengths up to 4095; the
benchmark's `@Param` and `main` also ask for 4096, whose slot is past the end.
A C access out of bounds is undefined and is a `Fault` here.
-/
import FfiBenchmark.Java
import Mathlib.Data.List.Range

namespace FfiBenchmark.StringTable

/-! ## `library.c` -/

/-- What is undefined in C. -/
inductive Fault where
  | tableIndex (i : Int)
  | store
  deriving DecidableEq

/-- A `const char *`: `""`, or a block that `malloc` returned. -/
inductive Ptr where
  | literal
  | block (id : Nat)
  deriving DecidableEq

/-- The static data and the heap; a byte of a new block has no value. -/
structure Memory where
  getStringTable : List (Option Ptr)
  blocks : List (List (Option UInt8))

namespace Memory

/-- `static char *get_string_table[4096] = {0}` -/
def init : Memory := ⟨List.replicate 4096 none, []⟩

def tableGet (m : Memory) (i : Int) : Except Fault (Option Ptr) :=
  if 0 ≤ i ∧ i < m.getStringTable.length then .ok (m.getStringTable.getD i.toNat none)
  else .error (.tableIndex i)

def tableSet (m : Memory) (i : Int) (p : Ptr) : Except Fault Memory :=
  if 0 ≤ i ∧ i < m.getStringTable.length then
    .ok { m with getStringTable := m.getStringTable.set i.toNat (some p) }
  else .error (.tableIndex i)

/-- `malloc`, where it succeeds. -/
def malloc (m : Memory) (size : Int) : Ptr × Memory :=
  (.block m.blocks.length, { m with blocks := m.blocks ++ [List.replicate size.toNat none] })

def store (m : Memory) (p : Ptr) (i : Int) (b : UInt8) : Except Fault Memory :=
  match p with
  | .literal => .error .store
  | .block id => match m.blocks[id]? with
    | none => .error .store
    | some bytes =>
      if 0 ≤ i ∧ i < bytes.length then
        .ok { m with blocks := m.blocks.set id (bytes.set i.toNat (some b)) }
      else .error .store

end Memory

/-- `(char) ((i % 26) + 'A')` -/
def letter (i : Nat) : UInt8 := .ofNat (i % 26 + 65)

/-- `for (int i = 0; i < length; ++i) res[i] = …` -/
def fill (res : Ptr) (length : Int) (m : Memory) : Except Fault Memory :=
  (List.range length.toNat).foldlM (fun (m : Memory) (i : Nat) => m.store res i (letter i)) m

def ffiBenchmarkGetString (length : Int) (m : Memory) : Except Fault (Ptr × Memory) :=
  if length = 0 then .ok (.literal, m)
  else do
    match ← m.tableGet length with
    | some res => return (res, m)
    | none =>
      let (res, m) := m.malloc (length + 1)
      let m ← fill res length m
      let m ← m.store res length 0
      let m ← m.tableSet length res
      return (res, m)

/-- A sequence of calls; with each, what it returned and the memory then. -/
def calls : List Int → Memory → Except Fault (List (Ptr × Memory))
  | [], _ => return []
  | n :: ns, m => do
    let (p, m) ← ffiBenchmarkGetString n m
    return (p, m) :: (← calls ns m)

/-- The bytes before the terminating NUL, if there is one and they have values. -/
def cString : List (Option UInt8) → Option (List UInt8)
  | [] => none
  | none :: _ => none
  | some b :: bytes => if b = 0 then some [] else (cString bytes).map (b :: ·)

def Memory.string (m : Memory) : Ptr → Option (List UInt8)
  | .literal => some []
  | .block id => m.blocks[id]?.bind cString

/-! ## `StringConvertBenchmark` -/

/-- `testStr`: a `char` is appended for each `i`. -/
def testStr (length : Nat) : List UInt16 :=
  (List.range length).foldl (fun builder i => builder ++ [.ofNat (i % 26 + 65)]) []

/-- The string of ASCII bytes. -/
def asciiString (bytes : List UInt8) : List UInt16 := bytes.map UInt8.toUInt16

/-! ## One call -/

/-- The bytes of the string of length `n`. -/
def letters (n : Nat) : List UInt8 := (List.range n).map letter

theorem testStr_eq (n : Nat) : testStr n = asciiString (letters n) := by
  induction n with
  | zero => rfl
  | succ n ih =>
    have hlast : UInt16.ofNat (n % 26 + 65) = (letter n).toUInt16 := by
      apply UInt16.toNat_inj.mp
      simp [letter]
      omega
    simp only [testStr, letters, asciiString] at ih ⊢
    rw [List.range_succ, List.foldl_append, ih, List.foldl_cons, List.foldl_nil, hlast,
      List.map_append, List.map_append]
    rfl

theorem letter_ne_zero (i : Nat) : letter i ≠ 0 := by
  intro h
  have := congrArg UInt8.toNat h
  simp [letter] at this
  omega

/-- A finished string of length `n`, with its NUL. -/
def finished (n : Nat) : List (Option UInt8) := (letters n).map some ++ [some 0]

theorem cString_finished (n : Nat) : cString (finished n) = some (letters n) := by
  have hall : ∀ bytes : List UInt8, (∀ b ∈ bytes, b ≠ 0) →
      cString (bytes.map some ++ [some 0]) = some bytes := by
    intro bytes hne
    induction bytes with
    | nil => rfl
    | cons b bytes ih =>
      rw [List.map_cons, List.cons_append, cString, if_neg (hne b (by simp)),
        ih fun b' hb' => hne b' (by simp [hb'])]
      rfl
  refine hall _ fun b hb => ?_
  obtain ⟨i, -, rfl⟩ := List.mem_map.mp hb
  exact letter_ne_zero i

theorem Memory.store_block {m : Memory} {id : Nat} {bytes : List (Option UInt8)}
    (hb : m.blocks[id]? = some bytes) {i : Nat} (hi : i < bytes.length) (b : UInt8) :
    m.store (.block id) i b = .ok { m with blocks := m.blocks.set id (bytes.set i (some b)) } := by
  have hrange : (0 : Int) ≤ i ∧ (i : Int) < bytes.length := by omega
  simp only [store, hb]
  rw [if_pos hrange, Int.toNat_natCast]

/-- The loop writes the letters over the first bytes of the block. -/
theorem fill_ok {m : Memory} {id : Nat} {bytes : List (Option UInt8)}
    (hb : m.blocks[id]? = some bytes) {n : Nat} (hn : n ≤ bytes.length) :
    fill (.block id) n m =
      .ok { m with blocks := m.blocks.set id ((letters n).map some ++ bytes.drop n) } := by
  have hlt : id < m.blocks.length := (List.getElem?_eq_some_iff.mp hb).1
  rw [fill, Int.toNat_natCast]
  induction n with
  | zero =>
    have hsame : m.blocks.set id bytes = m.blocks := by
      obtain ⟨hlt, rfl⟩ := List.getElem?_eq_some_iff.mp hb
      exact List.set_getElem_self hlt
    simp [letters, hsame]
    rfl
  | succ n ih =>
    have hdrop : bytes.drop n = bytes[n] :: bytes.drop (n + 1) :=
      List.drop_eq_getElem_cons (by omega)
    have hlen : ((letters n).map some).length = n := by simp [letters]
    have hstep : ((letters n).map some ++ bytes.drop n).set n (some (letter n)) =
        (letters (n + 1)).map some ++ bytes.drop (n + 1) := by
      rw [hdrop, List.set_append_right _ _ (by omega), hlen, Nat.sub_self, List.set_cons_zero,
        letters, letters, List.range_succ, List.map_append, List.map_append, List.append_assoc]
      rfl
    rw [List.range_succ, List.foldlM_append, ih (by omega)]
    change (Memory.store
      { m with blocks := m.blocks.set id ((letters n).map some ++ bytes.drop n) }
      (.block id) n (letter n) >>= pure) = _
    rw [Memory.store_block (List.getElem?_set_self hlt) (by simp [hlen]; omega), hstep]
    dsimp only
    rw [List.set_set]
    rfl

/-! ## The table -/

/-- Every slot is empty, or points to the finished string of its length. -/
structure Finished (m : Memory) : Prop where
  length : m.getStringTable.length = 4096
  slot : ∀ (n : Nat) p, m.getStringTable[n]? = some (some p) →
    ∃ id, p = .block id ∧ m.blocks[id]? = some (finished n)

/-- What was there before is there still. -/
structure Keeps (m m' : Memory) : Prop where
  slot : ∀ (n : Nat) p, m.getStringTable[n]? = some (some p) → m'.getStringTable[n]? = some (some p)
  block : ∀ (id : Nat) bytes, m.blocks[id]? = some bytes → m'.blocks[id]? = some bytes

theorem Keeps.refl (m : Memory) : Keeps m m := ⟨fun _ _ h => h, fun _ _ h => h⟩

theorem Keeps.trans {m m' m'' : Memory} (h : Keeps m m') (h' : Keeps m' m'') : Keeps m m'' :=
  ⟨fun n p hp => h'.slot n p (h.slot n p hp),
    fun id bytes hb => h'.block id bytes (h.block id bytes hb)⟩

/-- The pointer that `n` is answered with, once and for all. -/
def Answers (m : Memory) (n : Nat) (p : Ptr) : Prop :=
  if n = 0 then p = .literal else m.getStringTable[n]? = some (some p)

theorem Answers.unique {m : Memory} {n : Nat} {p q : Ptr} (hp : Answers m n p)
    (hq : Answers m n q) : p = q := by
  unfold Answers at hp hq
  split at hp
  · next h0 =>
    rw [if_pos h0] at hq
    rw [hp, hq]
  · next h0 =>
    rw [if_neg h0, hp] at hq
    exact Option.some.inj (Option.some.inj hq)

theorem Answers.keeps {m m' : Memory} {n : Nat} {p : Ptr} (hp : Answers m n p) (h : Keeps m m') :
    Answers m' n p := by
  unfold Answers at hp ⊢
  split
  · next h0 => rwa [if_pos h0] at hp
  · next h0 =>
    rw [if_neg h0] at hp
    exact h.slot n p hp

theorem Answers.string {m : Memory} (hm : Finished m) {n : Nat} {p : Ptr} (hp : Answers m n p) :
    m.string p = some (letters n) := by
  unfold Answers at hp
  split at hp
  · next h0 =>
    rw [hp, h0]
    rfl
  · obtain ⟨id, rfl, hb⟩ := hm.slot n p hp
    rw [Memory.string, hb]
    exact cString_finished n

/-- The memory with a finished string of length `n` in a new block, and in its slot. -/
def Memory.made (m : Memory) (n : Nat) : Memory where
  getStringTable := m.getStringTable.set n (some (.block m.blocks.length))
  blocks := m.blocks ++ [finished n]

/-- `malloc`, the loop, the NUL and the store to the table. -/
theorem make_ok (m : Memory) {n : Nat} (hlt : n < m.getStringTable.length) :
    (do let (res, m) := m.malloc (n + 1)
        let m ← fill res n m
        let m ← m.store res n 0
        let m ← m.tableSet n res
        return (res, m)) = .ok (.block m.blocks.length, m.made n) := by
  have hnew : (m.blocks ++ [List.replicate (n + 1) none])[m.blocks.length]? =
      some (List.replicate (n + 1) none) :=
    List.getElem?_concat_length
  have hfilled : (m.blocks ++ [List.replicate (n + 1) none]).set m.blocks.length
      ((letters n).map some ++ (List.replicate (n + 1) none).drop n) = m.blocks ++
      [(letters n).map some ++ [none]] := by
    rw [List.set_append_right _ _ (Nat.le_refl _), Nat.sub_self, List.set_cons_zero,
      List.drop_replicate, Nat.add_sub_cancel_left]
    rfl
  have hended : ((letters n).map some ++ [none]).set n (some 0) = finished n := by
    have hlen : ((letters n).map some).length = n := by simp [letters]
    rw [List.set_append_right _ _ (by omega), hlen, Nat.sub_self]
    rfl
  have hstored : (m.blocks ++ [(letters n).map some ++ [none]]).set m.blocks.length (finished n) =
      m.blocks ++ [finished n] := by
    rw [List.set_append_right _ _ (Nat.le_refl _), Nat.sub_self]
    rfl
  have hsize : ((n : Int) + 1).toNat = n + 1 := by omega
  simp only [Memory.malloc, hsize]
  rw [fill_ok hnew (by simp), hfilled]
  change (Memory.store { m with blocks := m.blocks ++ [(letters n).map some ++ [none]] }
    (.block m.blocks.length) n 0 >>=
    fun m' => m'.tableSet n (.block m.blocks.length) >>=
      fun m'' => pure (Ptr.block m.blocks.length, m'')) = _
  rw [Memory.store_block List.getElem?_concat_length (by simp [letters]), hended]
  dsimp only
  rw [hstored]
  have hrange : (0 : Int) ≤ n ∧ (n : Int) < m.getStringTable.length := by omega
  change (Memory.tableSet { m with blocks := m.blocks ++ [finished n] } n
    (.block m.blocks.length) >>=
    fun m'' => pure (Ptr.block m.blocks.length, m'')) = _
  rw [Memory.tableSet, if_pos hrange, Int.toNat_natCast]
  rfl

theorem Finished.made {m : Memory} (hm : Finished m) {n : Nat} (hlt : n < m.getStringTable.length) :
    Finished (m.made n) where
  length := by
    rw [Memory.made, List.length_set]
    exact hm.length
  slot k p hp := by
    simp only [Memory.made] at hp ⊢
    by_cases heq : n = k
    · subst heq
      rw [List.getElem?_set_self hlt] at hp
      cases hp
      exact ⟨_, rfl, List.getElem?_concat_length⟩
    · rw [List.getElem?_set_ne heq] at hp
      obtain ⟨id, hid, hb⟩ := hm.slot k p hp
      exact ⟨id, hid, by rw [List.getElem?_append_left (List.getElem?_eq_some_iff.mp hb).1, hb]⟩

theorem keeps_made {m : Memory} {n : Nat} (hempty : m.getStringTable[n]? = some none) :
    Keeps m (m.made n) where
  slot k p hp := by
    have hne : n ≠ k := by
      rintro rfl
      rw [hempty] at hp
      cases hp
    rw [Memory.made, List.getElem?_set_ne hne, hp]
  block id bytes hb := by
    rw [Memory.made, List.getElem?_append_left (List.getElem?_eq_some_iff.mp hb).1, hb]

/-- **A call for a length with a slot** returns the string of that length, and
keeps what was there. -/
theorem getString_ok {m : Memory} (hm : Finished m) {n : Nat} (hn : n < 4096) :
    ∃ p m', ffiBenchmarkGetString n m = .ok (p, m') ∧ Finished m' ∧ Keeps m m' ∧
      Answers m' n p := by
  by_cases h0 : n = 0
  · exact ⟨.literal, m, by rw [ffiBenchmarkGetString, if_pos (by omega)], hm, .refl m,
      by rw [Answers, if_pos h0]⟩
  · have hlt : n < m.getStringTable.length := by rw [hm.length]; exact hn
    have hget : m.tableGet n = .ok m.getStringTable[n] := by
      rw [Memory.tableGet, if_pos (by omega), Int.toNat_natCast, List.getD_eq_getElem?_getD,
        List.getElem?_eq_getElem hlt]
      rfl
    rw [ffiBenchmarkGetString, if_neg (by omega), hget]
    cases hslot : m.getStringTable[n] with
    | some p =>
      refine ⟨p, m, rfl, hm, .refl m, ?_⟩
      rw [Answers, if_neg h0, List.getElem?_eq_getElem hlt, hslot]
    | none =>
      have hempty : m.getStringTable[n]? = some none := by rw [List.getElem?_eq_getElem hlt, hslot]
      refine ⟨.block m.blocks.length, m.made n, ?_, hm.made hlt, keeps_made hempty, ?_⟩
      · exact make_ok m hlt
      · rw [Answers, if_neg h0]
        exact List.getElem?_set_self hlt

/-- The length 4096 has no slot. -/
theorem getString_past_end {m : Memory} (hm : Finished m) :
    ffiBenchmarkGetString 4096 m = .error (.tableIndex 4096) := by
  rw [ffiBenchmarkGetString, if_neg (by decide), Memory.tableGet, hm.length, if_neg (by decide)]
  rfl

/-! ## A history of calls -/

theorem finished_init : Finished Memory.init where
  length := List.length_replicate
  slot n p hp := by
    rw [Memory.init, List.getElem?_replicate] at hp
    split at hp <;> cases hp

/-- What the calls of a history gave, and the memory after each. -/
structure Answered (m : Memory) (ns : List Int) (out : List (Ptr × Memory)) : Prop where
  length : out.length = ns.length
  memory : ∀ (j : Nat) q m', out[j]? = some (q, m') → Finished m' ∧ Keeps m m'
  answer : ∀ (i j : Nat) n p m₁ q m₂, i ≤ j → ns[i]? = some n → out[i]? = some (p, m₁) →
    out[j]? = some (q, m₂) →
    Answers m₂ n.toNat p

theorem calls_ok {ns : List Int} {m : Memory} (hm : Finished m) (hns : ∀ n ∈ ns, 0 ≤ n ∧ n < 4096) :
    ∃ out, calls ns m = .ok out ∧ Answered m ns out := by
  induction ns generalizing m with
  | nil => exact ⟨[], rfl, rfl, by simp, by simp⟩
  | cons n ns ih =>
    obtain ⟨hpos, hlt⟩ := hns n (by simp)
    obtain ⟨k, rfl⟩ := Int.eq_ofNat_of_zero_le hpos
    obtain ⟨p, m', hcall, hm', hkeep, hans⟩ := getString_ok hm (n := k) (by omega)
    obtain ⟨out, hcalls, hout⟩ := ih hm' fun n' hn' => hns n' (by simp [hn'])
    refine ⟨(p, m') :: out, ?_, ?_, fun j q m₂ hj => ?_, fun i j n' p' m₁ q m₂ hij hn' hi hj => ?_⟩
    · rw [calls, hcall]
      change (calls ns m' >>= fun rest => pure ((p, m') :: rest)) = _
      rw [hcalls]
      rfl
    · rw [List.length_cons, List.length_cons, hout.length]
    · cases j with
      | zero =>
        cases hj
        exact ⟨hm', hkeep⟩
      | succ j =>
        obtain ⟨hfin, hk⟩ := hout.memory j q m₂ hj
        exact ⟨hfin, hkeep.trans hk⟩
    · cases i with
      | zero =>
        cases hn'
        cases hi
        cases j with
        | zero =>
          cases hj
          exact hans
        | succ j => exact hans.keeps (hout.memory j q m₂ hj).2
      | succ i =>
        cases j with
        | zero => omega
        | succ j => exact hout.answer i j n' p' m₁ q m₂ (by omega) hn' hi hj

/-- The first call for the length 4096 reads past the end of the table. -/
theorem calls_past_end {ns : List Int} {m : Memory} (hm : Finished m)
    (hns : ∀ n ∈ ns, 0 ≤ n ∧ n ≤ 4096) (hmem : 4096 ∈ ns) :
    calls ns m = .error (.tableIndex 4096) := by
  induction ns generalizing m with
  | nil => cases hmem
  | cons n ns ih =>
    by_cases hn : n = 4096
    · rw [hn, calls, getString_past_end hm]
      rfl
    · obtain ⟨hpos, hle⟩ := hns n (by simp)
      obtain ⟨k, rfl⟩ := Int.eq_ofNat_of_zero_le hpos
      obtain ⟨p, m', hcall, hm', -, -⟩ := getString_ok hm (n := k) (by omega)
      have hrest : calls ns m' = .error (.tableIndex 4096) := by
        refine ih hm' (fun n' hn' => hns n' (by simp [hn'])) ?_
        exact (List.mem_cons.mp hmem).resolve_left (Ne.symm hn)
      rw [calls, hcall]
      change (calls ns m' >>= fun rest => pure ((p, m') :: rest)) = _
      rw [hrest]
      rfl

/-- What a history of calls should give: each call returns the string of its
length, which no later call changes, and calls for one length return one pointer. -/
structure Correct (ns : List Int) (out : List (Ptr × Memory)) : Prop where
  length : out.length = ns.length
  string : ∀ (i j : Nat) n p m₁ q m₂, i ≤ j → ns[i]? = some n → out[i]? = some (p, m₁) →
    out[j]? = some (q, m₂) →
    ∃ bytes, m₂.string p = some bytes ∧ (bytes.length : Int) = n ∧
    asciiString bytes = testStr n.toNat
  pointer : ∀ (i j : Nat) n p m₁ q m₂, ns[i]? = some n → ns[j]? = some n → out[i]? = some (p, m₁) →
    out[j]? = some (q, m₂) → p = q

theorem Answered.correct {m : Memory} {ns : List Int} {out : List (Ptr × Memory)}
    (h : Answered m ns out) (hns : ∀ n ∈ ns, 0 ≤ n) : Correct ns out where
  length := h.length
  string i j n p m₁ q m₂ hij hn hi hj := by
    have hpos := hns n (List.mem_of_getElem? hn)
    refine ⟨letters n.toNat, (h.answer i j n p m₁ q m₂ hij hn hi hj).string (h.memory j q m₂ hj).1,
      ?_, (testStr_eq _).symm⟩
    rw [letters, List.length_map, List.length_range]
    omega
  pointer i j n p m₁ q m₂ hn hn' hi hj := by
    rcases Nat.le_total i j with hij | hij
    · exact (h.answer i j n p m₁ q m₂ hij hn hi hj).unique
        (h.answer j j n q m₂ q m₂ (Nat.le_refl _) hn' hj hj)
    · exact (h.answer i i n p m₁ p m₁ (Nat.le_refl _) hn hi hi).unique
        (h.answer j i n q m₂ p m₁ hij hn' hj hi)

/-- **The string table is correct just for the lengths below 4096.** For every
history of calls with the lengths the benchmark admits, no access to the table
is out of bounds, and the calls give what they should, if and only if none of
the lengths is 4096. -/
theorem string_table_correct {ns : List Int} (hns : ∀ n ∈ ns, 0 ≤ n ∧ n ≤ 4096) :
    (∃ out, calls ns .init = .ok out ∧ Correct ns out) ↔ 4096 ∉ ns := by
  constructor
  · rintro ⟨out, hcalls, -⟩ hmem
    rw [calls_past_end finished_init hns hmem] at hcalls
    cases hcalls
  · intro hnot
    have hbelow : ∀ n ∈ ns, 0 ≤ n ∧ n < 4096 := by
      intro n hn
      have := hns n hn
      have hne : n ≠ 4096 := fun heq => hnot (heq ▸ hn)
      omega
    obtain ⟨out, hcalls, hout⟩ := calls_ok finished_init hbelow
    exact ⟨out, hcalls, hout.correct fun n hn => (hns n hn).1⟩

/-- The lengths of `main`, but for the last. -/
theorem string_table_correct_below :
    (∃ out, calls [0, 16, 64, 256, 1024, 16] .init = .ok out ∧
      Correct [0, 16, 64, 256, 1024, 16] out) ↔
      4096 ∉ [0, 16, 64, 256, 1024, (16 : Int)] :=
  string_table_correct (by decide)

/-- The last length of `main`. -/
theorem string_table_incorrect : ¬ ∀ ns : List Int, (∀ n ∈ ns, 0 ≤ n ∧ n ≤ 4096) →
    ∃ out, calls ns .init = .ok out ∧ Correct ns out := by
  intro hcorrect
  obtain ⟨out, hcalls, -⟩ := hcorrect [4096] (by decide)
  rw [calls_past_end finished_init (by decide) (by decide)] at hcalls
  cases hcalls

end FfiBenchmark.StringTable
