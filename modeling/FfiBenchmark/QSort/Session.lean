/-
`main`: after `setup` the element at each index is the index, sorting leaves it
so, and `assertStatus` finds it so. A length from 2^31 on is never sorted: the
`int` of the loop of `setup` wraps first.
-/
import Mathlib.Data.Fin.Tuple.Sort
import FfiBenchmark.QSort.Calls

namespace FfiBenchmark.QSort

open Bytes Loop Sorting

/-! ## The loop -/

section ForInt

variable {length : Long} {body : Int → Native PUnit} (I : Nat → World → Prop)
  {E : Stop → World → Prop}

/-- Before the round of `i`: `i` has counted the rounds, or has wrapped. -/
def Counted (length : Long) (i : Int) (w : World) : Prop :=
  (∃ n : Nat, i = n ∧ (n : Int) ≤ length.toInt ∧ n < 2 ^ 31 ∧ I n w) ∨
    i = -2 ^ 31 ∧ 2 ^ 31 ≤ length.toInt ∧ I (2 ^ 31) w

def roundsLeft (length : Long) (i : Int) : Nat :=
  if i < 0 then (length.toInt - 2 ^ 31).toNat else (length.toInt - i).toNat

/-- `i++` -/
theorem Counted.next {n : Nat} {w : World} (hround : (n : Int) < length.toInt) (hlt : n < 2 ^ 31)
    (h : I (n + 1) w) :
    Counted I length (int32 (n + 1)) w ∧
      roundsLeft length (int32 (n + 1)) < roundsLeft length n := by
  by_cases hnext : n + 1 < 2 ^ 31
  · have hint : int32 (n + 1) = ((n + 1 : Nat) : Int) := by rw [int32_eq] <;> omega
    rw [hint]
    refine ⟨.inl ⟨n + 1, rfl, by omega, hnext, h⟩, ?_⟩
    rw [roundsLeft, roundsLeft, if_neg (by omega), if_neg (by omega)]
    omega
  · obtain rfl : n = 2 ^ 31 - 1 := by omega
    have hint : int32 (((2 ^ 31 - 1 : Nat) : Int) + 1) = -2 ^ 31 := by decide
    rw [hint]
    refine ⟨.inr ⟨rfl, by omega, h⟩, ?_⟩
    rw [roundsLeft, roundsLeft, if_pos (by omega), if_neg (by omega)]
    omega

/-- The rule of `for (int i = 0; i < length; i++)`. -/
theorem forInt_spec (hlen : 0 ≤ length.toInt)
    (hbody : ∀ (i : Nat) w, (i : Int) < length.toInt → i < 2 ^ 31 → I i w →
      Ensures (fun _ w' => I (i + 1) w') E (body i w))
    (hwrap : ∀ w, 2 ^ 31 ≤ length.toInt → I (2 ^ 31) w →
      Ensures (fun _ _ => False) E (body (-2 ^ 31) w))
    {w : World} (h : I 0 w) :
    Ensures (fun _ w' => length.toInt < 2 ^ 31 ∧ I length.toNat w') E (forInt length body w) := by
  have hnat := toInt_eq_toNat hlen
  refine Ensures.bind (P := Exit.Post (fun _ w' => length.toInt < 2 ^ 31 ∧ I length.toNat w')
    fun _ _ => False)
    (loop_spec (Counted I length) (roundsLeft length) (fun i w hi => ?_) ?_ ?_)
    fun exit w' hexit => ?_
  · rcases hi with ⟨n, rfl, hle, hlt, hI⟩ | ⟨rfl, hle, hI⟩
    · by_cases hround : (n : Int) < length.toInt
      · rw [if_pos hround]
        exact Ensures.bind (hbody n w hround hlt hI)
          fun _ w' hI' => .ok (Counted.next I hround hlt hI')
      · rw [if_neg hround]
        obtain rfl : n = length.toNat := by omega
        exact .ok ⟨by omega, hI⟩
    · rw [if_pos (by omega)]
      exact Ensures.bind (hwrap w hle hI) fun _ _ hfalse => hfalse.elim
  · rw [roundsLeft, if_neg (by omega)]
    omega
  · exact .inl ⟨0, rfl, by omega, by omega, h⟩
  · cases exit with
    | left i => exact .ok hexit
    | returned b => exact b.elim
    | running => exact hexit.elim

end ForInt

/-! ## The elements -/

theorem offset_natCast (i : Nat) : offset i = .ofNat 64 (i * sizeofJint) := by
  rw [offset, BitVec.ofInt_natCast, BitVec.ofNat_mul]
  rfl

theorem toNat_offset {i : Nat} (h : i < 2 ^ 31) : (offset i).toNat = i * sizeofJint := by
  rw [offset_natCast, BitVec.toNat_ofNat, sizeofJint, Nat.mod_eq_of_lt (by omega)]

/-- What `setup` allocates. -/
structure Holds (length : Long) (segment : MemorySegment) : Prop where
  nonneg : 0 ≤ length.toInt
  byteSize : segment.byteSize.toNat = length.toNat * sizeofJint
  aligned : segment.address.toNat % 4 = 0

theorem sequenceSize_ok {length byteSize : Long} (h : sequenceSize length = .ok byteSize) :
    0 ≤ length.toInt ∧ byteSize.toNat = length.toNat * sizeofJint := by
  unfold sequenceSize at h
  split at h
  · cases h
  · next hneg =>
    have hnat := toInt_eq_toNat (Int.not_lt.mp hneg)
    split at h
    · cases h
      refine ⟨Int.not_lt.mp hneg, ?_⟩
      rw [BitVec.toNat_mul, show (4 : Long).toNat = sizeofJint from rfl, sizeofJint,
        Nat.mod_eq_of_lt (by omega)]
    · cases h

theorem allocate_holds {arena : Arena} {length : Long} {segment : MemorySegment}
    (h : allocate arena length = .ok segment) :
    Holds length segment := by
  obtain ⟨byteSize, hsize, h⟩ := bind_eq_ok.mp h
  obtain ⟨hnonneg, hbytes⟩ := sequenceSize_ok hsize
  cases hallocate : arena.allocate byteSize 4 with
  | none =>
    rw [hallocate] at h
    cases h
  | some seg =>
    rw [hallocate] at h
    cases h
    obtain ⟨rfl, haligned⟩ := arena.allocated hallocate
    exact ⟨hnonneg, hbytes, Nat.mod_eq_zero_of_dvd haligned⟩

namespace Holds

variable {length : Long} {segment : MemorySegment} (h : Holds length segment)
include h

theorem in_range : segment.address.toNat + sizeofJint * length.toNat ≤ 2 ^ 64 := by
  have := segment.in_range
  rw [h.byteSize, Nat.mul_comm] at this
  exact this

theorem lt_toNat {i : Nat} (hi : (i : Int) < length.toInt) : i < length.toNat := by
  rw [toInt_eq_toNat h.nonneg] at hi
  omega

theorem encloses {i : Nat} (hi : (i : Int) < length.toInt) (hlt : i < 2 ^ 31) :
    segment.Encloses (offset i) 4 := by
  have hnat := toNat_offset hlt
  have hoffset : (offset i).toInt = (offset i).toNat :=
    BitVec.toInt_eq_toNat_of_lt (by rw [hnat, sizeofJint]; omega)
  have hsize := h.byteSize
  have hin := h.lt_toNat hi
  rw [sizeofJint] at hnat hsize
  refine ⟨by omega, by decide, ?_⟩
  rw [hoffset, segment.byteSize_toInt, hnat, hsize, show (4 : Long).toInt = 4 from rfl]
  omega

theorem toNat_element {i : Nat} (hi : (i : Int) < length.toInt) :
    (segment.address + offset i).toNat = segment.address.toNat + i * sizeofJint := by
  rw [offset_natCast]
  exact toNat_place h.in_range ⟨i, h.lt_toNat hi⟩

theorem element_aligned {i : Nat} (hi : (i : Int) < length.toInt) :
    (segment.address + offset i).toNat % 4 = 0 := by
  rw [h.toNat_element hi, sizeofJint, Nat.add_mul_mod_self_right]
  exact h.aligned

end Holds

/-- The index that has wrapped is outside of every segment. -/
theorem not_encloses_wrapped (segment : MemorySegment) :
    ¬ segment.Encloses (offset (-2 ^ 31)) 4 := by
  rintro ⟨h, -⟩
  exact absurd h (by decide)

/-- The elements before `n` are their indices. -/
def Indices (order : Order) (length : Long) (segment : MemorySegment) (n : Nat)
    (w : World) : Prop :=
  ∀ i < n, (i : Int) < length.toInt → i < 2 ^ 31 →
    unsafeGetInt order w.memory (segment.address + offset i) = i

theorem unsafeGetInt_store (order : Order) (m : Memory) (a : Long) (v : BitVec 32) :
    unsafeGetInt order (store m a.toNat (encode (n := 4) order v)) a = v.toInt := by
  have hload := load_store m a.toNat (encode (n := 4) order v)
  rw [Bytes.length_encode] at hload
  rw [unsafeGetInt, hload, Bytes.decode_encode]

theorem unsafeGetInt_store_apart {order : Order} {m : Memory} {a b : Long} {v : BitVec 32}
    (h : a.toNat + 4 ≤ b.toNat ∨ b.toNat + 4 ≤ a.toNat) :
    unsafeGetInt order (store m b.toNat (encode (n := 4) order v)) a = unsafeGetInt order m a := by
  rw [unsafeGetInt, load_store_apart fun i hi => by rw [Bytes.length_encode]; omega]
  rfl

theorem toInt_ofInt {i : Nat} (h : i < 2 ^ 31) : (BitVec.ofInt 32 i).toInt = i := by
  rw [BitVec.toInt_ofInt]
  exact int32_eq (by omega) (by omega)

/-! ## `setup` -/

theorem fill_spec {order : Order} {length : Long} {segment : MemorySegment}
    (h : Holds length segment) {stub : Stub} {E : Stop → World → Prop} {i : Nat} {w : World}
    (hi : (i : Int) < length.toInt) (hlt : i < 2 ^ 31)
    (hw : Indices order length segment i w ∧ w.stub = stub) :
    Ensures (fun _ w' => Indices order length segment (i + 1) w' ∧ w'.stub = stub) E
      (fill order segment i w) := by
  have hset : setJavaInt order w.memory segment (offset i) i =
      .ok (store w.memory (segment.address + offset i).toNat
        (encode (n := 4) order (.ofInt 32 i))) := by
    rw [setJavaInt, if_pos (h.encloses hi hlt), if_pos (h.element_aligned hi)]
  change Ensures _ E (EStateM.bind (orThrow (setJavaInt order w.memory segment (offset i) i))
    (fun m => modify fun w : World => { w with memory := m }) w)
  rw [hset]
  refine .ok ⟨fun j hj hjlen hjlt => ?_, hw.2⟩
  rcases Nat.lt_or_eq_of_le (Nat.le_of_lt_succ hj) with hbefore | rfl
  · rw [unsafeGetInt_store_apart (.inl ?_)]
    · exact hw.1 j hbefore hjlen hjlt
    · rw [h.toNat_element hi, h.toNat_element hjlen, sizeofJint]
      omega
  · rw [unsafeGetInt_store, toInt_ofInt hlt]

theorem fill_wrapped (order : Order) (segment : MemorySegment) (w : World) :
    fill order segment (-2 ^ 31) w = .error (.thrown .indexOutOfBounds) w := by
  have hset : setJavaInt order w.memory segment (offset (-2 ^ 31)) (-2 ^ 31) =
      .error .indexOutOfBounds :=
    if_neg (not_encloses_wrapped segment)
  change EStateM.bind (orThrow (setJavaInt order w.memory segment (offset (-2 ^ 31)) (-2 ^ 31)))
    (fun m => modify fun w : World => { w with memory := m }) w = _
  rw [hset]
  rfl

theorem fillAll_spec (order : Order) {length : Long} {segment : MemorySegment}
    (h : Holds length segment) (w : World) :
    Ensures (fun _ w' => length.toInt < 2 ^ 31 ∧ Indices order length segment length.toNat w' ∧
      w'.stub = w.stub)
      (fun e _ => 2 ^ 31 ≤ length.toInt ∧ e = .thrown .indexOutOfBounds)
        (forInt length (fill order segment) w) := by
  refine forInt_spec (fun i w' => Indices order length segment i w' ∧ w'.stub = w.stub) h.nonneg
    (fun i w' hi hlt hI => fill_spec h hi hlt hI) (fun w' hlen _ => ?_)
    ⟨fun i hi => absurd hi (Nat.not_lt_zero i), rfl⟩
  rw [fill_wrapped]
  exact .error ⟨hlen, rfl⟩

/-- How a round of `main` ends. -/
def expected (arena : Arena) (length : Long) : Except Stop Unit :=
  match allocate arena length with
  | .error e => .error (.thrown e)
  | .ok _ => if 2 ^ 31 ≤ length.toInt then .error (.thrown .indexOutOfBounds) else .ok ⟨⟩

/-- The stub is empty, or as a call by JNI that the VM answered left it. -/
def Stub.Ready (s : Stub) : Prop := s.vm = none ∨ s.Filled

/-- A benchmark in which each element is its index. -/
structure Ready (order : Order) (b : QSortBenchmark) (w : World) : Prop where
  holds : Holds b.length b.segment
  address : b.address = b.segment.address
  lt : b.length.toInt < 2 ^ 31
  ints : ∀ i : Fin b.length.toNat, ints order w.memory b.address b.length.toNat i = (i.val : Int)
  stub : w.stub.Ready

theorem setup_spec (order : Order) (arena : Arena) (length : Long) {w : World} (hw : w.stub.Ready) :
    Ensures (fun b w' => Ready order b w' ∧ expected arena length = .ok ⟨⟩)
      (fun e _ => expected arena length = .error e)
      (setup order arena length w) := by
  refine Ensures.bind (P := fun segment w' => allocate arena length = .ok segment ∧ w' = w) ?_
    fun segment w' hseg => ?_
  · rw [expected]
    cases hallocate : allocate arena length with
    | error e => exact .error rfl
    | ok segment => exact .ok ⟨rfl, rfl⟩
  · obtain ⟨hseg, rfl⟩ := hseg
    have h := allocate_holds hseg
    have hnat := toInt_eq_toNat h.nonneg
    have hexpected : expected arena length =
        if 2 ^ 31 ≤ length.toInt then .error (.thrown .indexOutOfBounds) else .ok ⟨⟩ := by
      rw [expected, hseg]
    refine Ensures.bind (P := fun _ w₁ => w₁.stub = w'.stub) (.ok rfl) fun _ w₁ hstub => ?_
    refine Ensures.bind ((fillAll_spec order h w₁).mono (fun _ _ h => h) ?_)
      fun _ w₂ ⟨hlt, hindices, hsame⟩ => ?_
    · rintro e _ ⟨hlen, rfl⟩
      rw [hexpected, if_pos hlen]
    · refine .ok ⟨⟨h, rfl, hlt, fun (i : Fin length.toNat) => ?_, ?_⟩,
        hexpected.trans (if_neg (by omega))⟩
      · dsimp only
        rw [QSort.ints, ← offset_natCast]
        exact hindices i i.isLt (by omega) (by omega)
      · rw [hsame, hstub]
        exact hw

/-! ## The calls and `assertStatus` -/

/-- The VM has what the call asks it for. -/
def Way.Answered : Way → Prop
  | .jni env => env.message = none ∧ env.newGlobalRef ≠ none
  | .panama => True

theorem Stub.Ready.valid {s : Stub} (h : s.Ready) : s.Valid := h.imp_right Stub.Filled.methodId

theorem Stub.Ready.fill {s : Stub} (h : s.Ready) {env : Env} (henv : (Way.jni env).Answered) :
    (s.fill env).Filled := by
  rw [Stub.fill]
  split
  · exact ⟨Env.getJavaVM_ne henv.1, henv.2, rfl⟩
  · next hvm => exact h.resolve_left hvm

namespace Ready

variable {order : Order} {b : QSortBenchmark} {w : World} (h : Ready order b w)
include h

theorem assertStatus_spec :
    Ensures (fun _ w' => w' = w) (fun _ _ => False) (assertStatus order b w) := by
  refine (forInt_spec (fun _ w' => w' = w) h.holds.nonneg (fun i w' hi hlt hw' => ?_)
    (fun _ hlen _ => absurd h.lt (Int.not_lt.mpr hlen)) rfl).mono (fun _ _ h => h.2) fun _ _ h => h
  subst hw'
  have hget : getJavaInt order w'.memory b.segment (offset i) = .ok (i : Int) := by
    rw [getJavaInt, if_pos (h.holds.encloses hi hlt), if_pos (h.holds.element_aligned hi),
      offset_natCast, ← h.address]
    exact congrArg Except.ok (h.ints ⟨i, h.holds.lt_toNat hi⟩)
  refine Ensures.bind (P := fun value w₁ => value = (i : Int) ∧ w₁ = w') ?_
    fun value w₁ hvalue => ?_
  · rw [hget]
    exact .ok ⟨rfl, rfl⟩
  · obtain ⟨rfl, rfl⟩ := hvalue
    rw [if_neg (not_not.mpr rfl)]
    exact .ok rfl

theorem call_eq (way : Way) (sorter : (n : Nat) → Sorter n) :
    b.call way sorter = ⟨way, sorter, b.address, b.length⟩ := by
  cases way with
  | jni env => rfl
  | panama => rw [QSortBenchmark.call, h.address]

theorem stop_eq_none {way : Way} (hway : way.Answered) (sorter : (n : Nat) → Sorter n) :
    Call.stop ⟨way, sorter, b.address, b.length⟩ w.stub = none := by
  cases way with
  | jni env =>
    simp only [Call.stop]
    rw [hway.1, Option.map_none, ite_self]
  | panama =>
    simp only [Call.stop, h.address]
    rw [if_pos h.holds.aligned]

theorem hasClass {way : Way} (hway : way.Answered) (sorter : (n : Nat) → Sorter n) :
    Call.HasClass ⟨way, sorter, b.address, b.length⟩ w.stub := by
  cases way with
  | jni env => exact (h.stub.fill hway).cls
  | panama => trivial

theorem stubAfter_ready {way : Way} (hway : way.Answered) (sorter : (n : Nat) → Sorter n) :
    (Call.stubAfter ⟨way, sorter, b.address, b.length⟩ w.stub).Ready := by
  cases way with
  | jni env => exact .inr (h.stub.fill hway)
  | panama => exact h.stub

/-- A call has nothing to rearrange. -/
theorem call_ok {way : Way} (hway : way.Answered) (sorter : (n : Nat) → Sorter n) :
    ∃ w', (b.call way sorter).run order w = .ok ⟨⟩ w' ∧ Ready order b w' := by
  have hrange : b.address.toNat + sizeofJint * b.length.toNat ≤ 2 ^ 64 := by
    rw [h.address]
    exact h.holds.in_range
  have hsorts : Sorts order ⟨way, sorter, b.address, b.length⟩ w.memory _ :=
    sorted_sorts hrange w.memory
  obtain ⟨σ, hσ⟩ := hsorts.rearranged
  have hbefore : Monotone (QSort.ints order w.memory b.address
      b.length.toNat ∘ (1 : Equiv.Perm (Fin b.length.toNat))) := by
    intro i j hij
    simp only [Function.comp_apply, Equiv.Perm.one_apply, h.ints]
    exact Int.ofNat_le.mpr hij
  have hafter : Monotone (QSort.ints order w.memory b.address b.length.toNat ∘ σ) := by
    rw [← hσ]
    exact hsorts.sorted
  rw [h.call_eq]
  have hrun := Call.run_ok (c := ⟨way, sorter, b.address, b.length⟩) hrange
    (h.stop_eq_none hway sorter) (h.hasClass hway sorter) h.stub.valid order w.memory
  refine ⟨_, hrun, h.holds, h.address, h.lt, fun i => ?_, h.stubAfter_ready hway sorter⟩
  dsimp only
  rw [hσ, Tuple.unique_monotone hafter hbefore]
  exact h.ints i

end Ready

/-! ## `main` -/

theorem Ready.calls_spec {order : Order} {b : QSortBenchmark} {w : World} (h : Ready order b w)
    {calls : List (Way × ((n : Nat) → Sorter n))} (hcalls : ∀ c ∈ calls, c.1.Answered) :
    Ensures (fun _ w' => Ready order b w') (fun _ _ => False)
      ((calls.forM fun c => do
        (b.call c.1 c.2).run order
        assertStatus order b) w) := by
  refine forM_spec (Ready order b) (fun c hc w h => ?_) h
  obtain ⟨w', hrun, h'⟩ := h.call_ok (hcalls c hc) c.2
  refine Ensures.bind (P := fun _ w' => Ready order b w') ?_ fun _ w' h' => ?_
  · rw [hrun]
    exact .ok h'
  · exact h'.assertStatus_spec.mono (fun _ _ hsame => hsame ▸ h') fun _ _ hfalse => hfalse

theorem Session.run_spec (order : Order) {s : Session} (hcalls : ∀ c ∈ s.calls, c.1.Answered)
    {w : World} (hw : w.stub.Ready) :
    Ensures (fun _ w' => w'.stub.Ready ∧ expected s.arena s.length = .ok ⟨⟩)
      (fun e _ => expected s.arena s.length = .error e) (s.run order w) :=
  Ensures.bind (setup_spec order s.arena s.length hw) fun _ _ h =>
    (h.1.calls_spec hcalls).mono (fun _ _ hready => ⟨hready.stub, h.2⟩)
      fun _ _ hfalse => hfalse.elim

/-- **`main` finds no invalid value.** Whatever sorts the C library uses and
however the calls alternate between JNI and Panama, `assertStatus` never throws:
`main` ends as its allocations do, or with the index of `setup` out of bounds,
where a length does not fit in an `int`. -/
theorem main_valid (order : Order) (memory : Memory) {sessions : List Session}
    (h : ∀ s ∈ sessions, ∀ c ∈ s.calls, c.1.Answered) :
    outcome (main order sessions (World.init memory)) =
      sessions.forM fun s => expected s.arena s.length :=
  outcome_forM (fun w => w.stub.Ready) (fun s hs _ hw => Session.run_spec order (h s hs) hw)
    (.inl rfl)

/-- Four `int`s are sorted by either way, and 2^31 of them are not. -/
theorem main_valid_two :
    let allocate : Long → Long → Option MemorySegment := fun byteSize byteAlignment =>
      if h : (0 ≤ byteSize.toInt ∧ 4096 + byteSize.toNat ≤ 2 ^ 64) ∧ byteAlignment = 4 then
        some ⟨4096, byteSize, h.1.1, h.1.2⟩
      else none
    let arena : Arena := ⟨allocate, by
      intro byteSize byteAlignment segment hsegment
      simp only [allocate] at hsegment
      split at hsegment
      · next hasked =>
        obtain ⟨_, rfl⟩ := hasked
        cases hsegment
        exact ⟨rfl, show (4 : Long).toNat ∣ (4096 : Long).toNat by decide⟩
      · cases hsegment⟩
    let four : Session :=
      ⟨arena, 4, [(.jni ⟨some 1, true, some 1⟩, insertionSort), (.panama, insertionSort)]⟩
    let large : Session := ⟨arena, 0x80000000, [(.panama, insertionSort)]⟩
    outcome (main .little [four, four] (World.init fun _ => 0)) = .ok ⟨⟩ ∧
      outcome (main .little [four, large] (World.init fun _ => 0)) =
      .error (.thrown .indexOutOfBounds) := by
  intro allocate arena four large
  have hfour : ∀ c ∈ four.calls, c.1.Answered := by
    rintro c hc
    rcases List.mem_pair.mp hc with rfl | rfl
    · exact ⟨by decide, by decide⟩
    · trivial
  have hlarge : ∀ c ∈ large.calls, c.1.Answered := by
    rintro c hc
    rw [List.mem_singleton.mp hc]
    trivial
  refine ⟨(main_valid .little _ fun s hs => ?_).trans (by decide +kernel),
    (main_valid .little _ fun s hs => ?_).trans (by decide +kernel)⟩
  · rcases List.mem_pair.mp hs with rfl | rfl <;> exact hfour
  · rcases List.mem_pair.mp hs with rfl | rfl
    · exact hfour
    · exact hlarge

end FfiBenchmark.QSort
