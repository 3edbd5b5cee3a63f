/-
The calls of `qsort`: both comparators compare the same `int`s (`qsortCompare_ok`,
`qsortComparator_ok`), the stub is filled once, and so any history of calls, by
either way, sorts what it is given (`qsort_sorts`).
-/
import FfiBenchmark.QSort

namespace FfiBenchmark.QSort

open Bytes Sorting

/-! ## The array -/

/-- The `int`s of the array. -/
def ints (order : Order) (m : Memory) (base : Long) (n : Nat) : Fin n → Int := fun i =>
  unsafeGetInt order m (base + .ofNat 64 (i * sizeofJint))

theorem toNat_place {base : Long} {n : Nat} (h : base.toNat + sizeofJint * n ≤ 2 ^ 64) (i : Fin n) :
    (base + .ofNat 64 (i * sizeofJint)).toNat = base.toNat + i * sizeofJint := by
  have hi := i.isLt
  rw [sizeofJint] at h ⊢
  rw [BitVec.toNat_add, BitVec.toNat_ofNat, Nat.mod_eq_of_lt (by omega),
    Nat.mod_eq_of_lt (by omega)]

theorem ints_permuted {base : Long} {n : Nat} (h : base.toNat + sizeofJint * n ≤ 2 ^ 64)
    (order : Order) (m : Memory) (σ : Equiv.Perm (Fin n)) :
    ints order (permuted base.toNat sizeofJint σ m) base n = ints order m base n ∘ σ := by
  funext i
  simp only [ints, unsafeGetInt, Function.comp_apply]
  rw [toNat_place h, toNat_place h]
  congr 2
  exact load_permuted i

theorem integerCompare_nonpos {x y : Int} : integerCompare x y ≤ 0 ↔ x ≤ y := by
  unfold integerCompare
  split
  · omega
  · split <;> omega

theorem integerCompare_neg {x y : Int} : integerCompare x y < 0 ↔ x < y := by
  unfold integerCompare
  split
  · omega
  · split <;> omega

theorem integerCompare_pos {x y : Int} : 0 < integerCompare x y ↔ y < x := by
  rw [← Int.not_le, integerCompare_nonpos, Int.not_le]

theorem integerCompare_consistent : Consistent integerCompare where
  sign a b := by
    rw [integerCompare_neg, integerCompare_pos]
  trans a b c := by
    rw [integerCompare_nonpos, integerCompare_nonpos, integerCompare_nonpos]
    exact Int.le_trans

/-! ## The comparators -/

/-- The stub as `Java_benchmark_QSortBenchmark_qsort` leaves it. -/
structure Stub.Filled (s : Stub) : Prop where
  vm : s.vm ≠ none
  cls : s.cls ≠ none
  methodId : s.methodId = some ⟨"qsortCompare", "(JJ)I"⟩

theorem qsortCompare_ok {w : World} (h : w.stub.Filled) (order : Order) (a b : Long) :
    qsortCompare order a b w = .ok (qsortCompareLong order w.memory a b) w := by
  obtain ⟨cls, hcls⟩ := Option.ne_none_iff_exists'.mp h.cls
  have hmethod : (w.stub.methodId.bind (List.lookup · staticMethods)) =
      some (.long qsortCompareLong) := by
    rw [h.methodId]
    rfl
  change (if w.stub.vm = none then throw .undefined
    else callStaticIntMethod order w.stub.cls w.stub.methodId a b : Native Int) w = _
  unfold callStaticIntMethod
  rw [if_neg h.vm, hcls, hmethod]
  rfl

/-- The segment of an aligned pointer is read at the pointer. -/
theorem getJavaInt_target {a : Long} {seg : MemorySegment} (h : targetSegment a = .ok seg)
    (order : Order) (m : Memory) :
    getJavaInt order m seg 0 = .ok (unsafeGetInt order m a) := by
  rw [targetSegment] at h
  split at h
  · next ha =>
    cases h
    have hin : (0 : Int) ≤ (0 : Long).toInt ∧ 0 ≤ (4 : Long).toInt ∧
        (0 : Long).toInt + (4 : Long).toInt ≤ (4 : Long).toInt := by decide
    rw [getJavaInt, if_pos hin]
    dsimp only
    rw [show a + 0 = a from BitVec.add_zero a, if_pos ha]
  · cases h

theorem qsortCompare_null {w : World} (h : w.stub.vm = none ∨ w.stub.cls = none) (order : Order)
    (a b : Long) :
    qsortCompare order a b w = .error .undefined w := by
  change (if w.stub.vm = none then throw .undefined
    else callStaticIntMethod order w.stub.cls w.stub.methodId a b : Native Int) w = _
  split
  · rfl
  · next hvm =>
    unfold callStaticIntMethod
    rw [h.resolve_left hvm]
    rfl

theorem qsortComparator_apply (order : Order) (a b : Long) (w : World) :
    qsortComparator order a b w =
      match (do qsortCompareSegment order w.memory (← targetSegment a) (← targetSegment b)) with
      | .ok c => .ok c w
      | .error e => .error (.uncaught e) w := by
  change (match (do qsortCompareSegment order w.memory (← targetSegment a) (← targetSegment b)) with
    | .ok c => pure c
    | .error e => throw (.uncaught e) : Native Int) w = _
  split <;> rfl

theorem qsortComparator_ok {a b : Long} (ha : a.toNat % 4 = 0) (hb : b.toNat % 4 = 0)
    (order : Order) (w : World) :
    qsortComparator order a b w = .ok (qsortCompareLong order w.memory a b) w := by
  obtain ⟨elem1, helem1⟩ : ∃ seg, targetSegment a = .ok seg := ⟨_, dif_pos ha⟩
  obtain ⟨elem2, helem2⟩ : ∃ seg, targetSegment b = .ok seg := ⟨_, dif_pos hb⟩
  rw [qsortComparator_apply, helem1, ok_bind, helem2, ok_bind, qsortCompareSegment,
    getJavaInt_target helem1, ok_bind, getJavaInt_target helem2, ok_bind]
  rfl

/-- The array after a sort by `integerCompare`. -/
def sorted (order : Order) (sorter : (n : Nat) → Sorter n) (base n : Long) (m : Memory) : Memory :=
  permuted base.toNat sizeofJint
    ((sorter n.toNat).program.rearrangement integerCompare (ints order m base n.toNat)) m

/-- A comparator that compares the elements of the array. -/
def Compares (order : Order) (base n : Long) (I : World → Prop)
    (comparator : Long → Long → Native Int) : Prop :=
  ∀ (i j : Fin n.toNat) w, I w →
    let elements := ints order w.memory base n.toNat
    comparator (base + .ofNat 64 (i * sizeofJint)) (base + .ofNat 64 (j * sizeofJint)) w =
      .ok (integerCompare (elements i) (elements j)) w

theorem Libc.qsort_eq {sorter : (n : Nat) → Sorter n} {base n : Long} {order : Order}
    (I : World → Prop) {comparator : Long → Long → Native Int}
    (hfits : base.toNat + sizeofJint * n.toNat ≤ 2 ^ 64)
    (hcompare : Compares order base n I comparator) (hI : ∀ w m, I w → I { w with memory := m })
    {w : World} (hw : I w) :
    Libc.qsort sorter base n sizeofJint comparator w =
      .ok ⟨⟩ { w with memory := sorted order sorter base n w.memory } := by
  let move (σ : Equiv.Perm (Fin n.toNat)) (w : World) : World :=
    { w with memory := permuted base.toNat sizeofJint σ w.memory }
  have hview (σ : Equiv.Perm (Fin n.toNat)) (w : World) :
      ints order (move σ w).memory base n.toNat = ints order w.memory base n.toNat ∘ σ :=
    ints_permuted hfits order w.memory σ
  have hone (w : World) : move 1 w = w := by
    simp only [move, permuted_one]
  have hmul (σ ρ : Equiv.Perm (Fin n.toNat)) (w : World) : move ρ (move σ w) = move (σ * ρ) w := by
    simp only [move, permuted_permuted]
  exact Program.exec_eq move integerCompare (fun w => ints order w.memory base n.toNat) I
    hcompare hview (fun σ w h => hI w _ h) hone hmul (sorter n.toNat).program hw

/-- A sort writes nothing but the array. -/
theorem Libc.qsort_stub {sorter : (n : Nat) → Sorter n} {base n : Long}
    {comparator : Long → Long → Native Int} {w w' : World}
    (hcompare : ∀ {a b w₁ c w₂}, w₁.stub = w.stub → comparator a b w₁ = .ok c w₂ → w₂ = w₁)
    (h : Libc.qsort sorter base n sizeofJint comparator w = .ok ⟨⟩ w') :
    w'.stub = w.stub := by
  refine Program.exec_invariant (fun w₁ : World => w₁.stub = w.stub) (fun hstub hresult => ?_)
    (fun σ w₁ hstub => ?_) _ rfl h
  · rw [hcompare hstub hresult]
    exact hstub
  · exact hstub

/-! ## Histories of calls -/

/-- The stub is empty, or has been filled by a call by JNI. -/
def Stub.Valid (s : Stub) : Prop := s.vm = none ∨ s.methodId = some ⟨"qsortCompare", "(JJ)I"⟩

/-- The stub that a call by JNI sorts with. -/
def Stub.fill (s : Stub) (env : Env) : Stub :=
  if s.vm = none then ⟨env.getJavaVM, env.newGlobalRef, some ⟨"qsortCompare", "(JJ)I"⟩⟩ else s

/-- The message of `fillStub`, where it exits. -/
def Env.message (env : Env) : Option String :=
  if env.getJavaVM = none then some "Failed to get vm"
  else if env.getStaticMethodID then none
  else some "Failed to find method"

/-- What keeps a call from sorting, where anything does. -/
def Call.stop (c : Call) (stub : Stub) : Option Stop :=
  match c.way with
  | .jni env => if stub.vm = none then env.message.map .exit else none
  | .panama =>
    if c.address.toNat % 4 = 0 then none
    else some (.uncaught (.illegalArgument "Invalid alignment constraint for address"))

/-- What JNI asks of a call: the class whose method is called is not null. -/
def Call.HasClass (c : Call) (stub : Stub) : Prop :=
  match c.way with
  | .jni env => (stub.fill env).cls ≠ none
  | .panama => True

/-- The stub after a call that returns. -/
def Call.stubAfter (c : Call) (stub : Stub) : Stub :=
  match c.way with
  | .jni env => stub.fill env
  | .panama => stub

theorem fillStub_ok {env : Env} {w : World} (h : env.message = none) :
    fillStub env w =
      .ok ⟨⟩ ⟨w.memory, ⟨env.getJavaVM, env.newGlobalRef, some ⟨"qsortCompare", "(JJ)I"⟩⟩⟩ := by
  rw [Env.message] at h
  split at h
  · cases h
  · next hvm =>
    obtain ⟨vm, henv⟩ := Option.ne_none_iff_exists'.mp hvm
    split at h
    · next hmethod =>
      have hfound :
          getStaticMethodID env "qsortCompare" "(JJ)I" = some ⟨"qsortCompare", "(JJ)I"⟩ := by
        rw [getStaticMethodID, if_pos hmethod]
        rfl
      rw [fillStub, henv, hfound]
      rfl
    · cases h

theorem fillStub_exit {env : Env} {message : String} (h : env.message = some message) (w : World) :
    fillStub env w = .error (.exit message) w := by
  rw [Env.message] at h
  split at h
  · next henv =>
    cases h
    rw [fillStub, henv]
    rfl
  · next hvm =>
    obtain ⟨vm, henv⟩ := Option.ne_none_iff_exists'.mp hvm
    split at h
    · cases h
    · next hmethod =>
      cases h
      rw [fillStub, henv, getStaticMethodID, if_neg hmethod]
      rfl

theorem qsort_apply (order : Order) (env : Env) (sorter : (n : Nat) → Sorter n)
    (address elements : Long) (w : World) :
    qsort order env sorter address elements w =
      if w.stub.vm = none then
        match fillStub env w with
        | .ok _ w' => Libc.qsort sorter address elements sizeofJint (qsortCompare order) w'
        | .error e w' => .error e w'
      else Libc.qsort sorter address elements sizeofJint (qsortCompare order) w := by
  change (if w.stub.vm = none then
      fillStub env >>= fun _ => Libc.qsort sorter address elements sizeofJint (qsortCompare order)
    else Libc.qsort sorter address elements sizeofJint (qsortCompare order)) w = _
  split
  · change EStateM.bind (fillStub env) _ w = _
    rw [EStateM.bind]
    cases fillStub env w <;> rfl
  · rfl

theorem qsort_filled {env : Env} {w : World} (h : w.stub.vm = none → env.message = none)
    (order : Order) (sorter : (n : Nat) → Sorter n) (address elements : Long) :
    qsort order env sorter address elements w =
      Libc.qsort sorter address elements sizeofJint (qsortCompare order)
        ⟨w.memory, w.stub.fill env⟩ := by
  rw [qsort_apply, Stub.fill]
  by_cases hvm : w.stub.vm = none
  · rw [if_pos hvm, if_pos hvm, fillStub_ok (h hvm)]
  · rw [if_neg hvm, if_neg hvm]

theorem qsort_exit {env : Env} {w : World} {message : String} (hvm : w.stub.vm = none)
    (h : env.message = some message) (order : Order) (sorter : (n : Nat) → Sorter n)
    (address elements : Long) :
    qsort order env sorter address elements w = .error (.exit message) w := by
  rw [qsort_apply, if_pos hvm, fillStub_exit h]

theorem Stub.Valid.fill {s : Stub} (h : s.Valid) (env : Env) :
    (s.fill env).methodId = some ⟨"qsortCompare", "(JJ)I"⟩ := by
  rw [Stub.fill]
  split
  · rfl
  · next hvm => exact h.resolve_left hvm

theorem Stub.Valid.stubAfter {s : Stub} (h : s.Valid) (c : Call) : (c.stubAfter s).Valid := by
  rw [Call.stubAfter]
  split
  · exact .inr (h.fill _)
  · exact h

theorem Env.getJavaVM_ne {env : Env} (h : env.message = none) : env.getJavaVM ≠ none := by
  intro hvm
  rw [Env.message, if_pos hvm] at h
  cases h

theorem Stub.fill_vm {s : Stub} {env : Env} (h : s.vm = none → env.message = none) :
    (s.fill env).vm ≠ none := by
  rw [Stub.fill]
  split
  · next hvm => exact Env.getJavaVM_ne (h hvm)
  · next hvm => exact hvm

theorem place_aligned {base n : Long} (hrange : base.toNat + sizeofJint * n.toNat ≤ 2 ^ 64)
    (i : Fin n.toNat) :
    (base + .ofNat 64 (i * sizeofJint)).toNat % 4 = base.toNat % 4 := by
  rw [toNat_place hrange i, sizeofJint, Nat.add_mul_mod_self_right]

section Call

variable {c : Call} {stub : Stub}
  (hrange : c.address.toNat + sizeofJint * c.elements.toNat ≤ 2 ^ 64)
include hrange

/-- A call that nothing stops sorts. -/
theorem Call.run_ok (hstop : c.stop stub = none) (hclass : c.HasClass stub) (hstub : stub.Valid)
    (order : Order) (m : Memory) :
    c.run order ⟨m, stub⟩ =
      .ok ⟨⟩ ⟨sorted order c.sorter c.address c.elements m, c.stubAfter stub⟩ := by
  cases hway : c.way with
  | jni env =>
    simp only [Call.stop, hway, ite_eq_right_iff, Option.map_eq_none_iff] at hstop
    simp only [Call.HasClass, hway] at hclass
    have hfilled : (stub.fill env).Filled := ⟨Stub.fill_vm hstop, hclass, hstub.fill env⟩
    simp only [Call.run, Call.stubAfter, hway]
    rw [qsort_filled hstop]
    exact Libc.qsort_eq (fun w => w.stub.Filled) hrange
      (fun i j w hw => qsortCompare_ok hw order _ _) (fun _ _ h => h) hfilled
  | panama =>
    simp only [Call.stop, hway, ite_eq_left_iff, reduceCtorEq, imp_false, not_not] at hstop
    simp only [Call.run, Call.stubAfter, hway]
    refine Libc.qsort_eq (fun _ => True) hrange (fun i j w _ => ?_) (fun _ _ h => h) trivial
    exact qsortComparator_ok (by rw [place_aligned hrange, hstop])
      (by rw [place_aligned hrange, hstop]) order w

end Call

theorem qsortCompare_keeps {w w' : World} {order : Order} {a b : Long} {c : Int}
    (hw : w.stub.methodId = some ⟨"qsortCompare", "(JJ)I"⟩)
    (h : qsortCompare order a b w = .ok c w') : w' = w := by
  by_cases hnull : w.stub.vm = none ∨ w.stub.cls = none
  · rw [qsortCompare_null hnull] at h
    cases h
  · rw [not_or] at hnull
    rw [qsortCompare_ok ⟨hnull.1, hnull.2, hw⟩] at h
    cases h
    rfl

theorem qsortComparator_keeps {w w' : World} {order : Order} {a b : Long} {c : Int}
    (h : qsortComparator order a b w = .ok c w') : w' = w := by
  rw [qsortComparator_apply] at h
  split at h
  · cases h
    rfl
  · cases h

/-- A call that returns leaves a stub that can be used again. -/
theorem Call.run_stub {c : Call} {order : Order} {w w' : World} (hw : w.stub.Valid)
    (h : c.run order w = .ok ⟨⟩ w') :
    w'.stub = c.stubAfter w.stub := by
  cases hway : c.way with
  | jni env =>
    simp only [Call.run, hway] at h
    simp only [Call.stubAfter, hway]
    have hfill : w.stub.vm = none → env.message = none := by
      intro hvm
      by_contra hmessage
      obtain ⟨message, hmessage⟩ := Option.ne_none_iff_exists'.mp hmessage
      rw [qsort_exit hvm hmessage] at h
      cases h
    rw [qsort_filled hfill] at h
    refine Libc.qsort_stub (fun hstub hcompare => qsortCompare_keeps ?_ hcompare) h
    rw [hstub]
    exact hw.fill env
  | panama =>
    simp only [Call.run, hway] at h
    simp only [Call.stubAfter, hway]
    exact Libc.qsort_stub (fun _ => qsortComparator_keeps) h

theorem forM_cons {order : Order} {c : Call} {w w' : World} {u : PUnit}
    (h : c.run order w = .ok u w') (history : List Call) :
    (c :: history).forM (Call.run order) w = history.forM (Call.run order) w' := by
  change EStateM.bind (Call.run order c) (fun _ => history.forM (Call.run order)) w = _
  rw [EStateM.bind, h]

theorem Valid.calls {order : Order} {history : List Call} {w w' : World} (hw : w.stub.Valid)
    (h : history.forM (Call.run order) w = .ok ⟨⟩ w') : w'.stub.Valid := by
  induction history generalizing w with
  | nil =>
    cases h
    exact hw
  | cons c history ih =>
    cases hrun : c.run order w with
    | ok u w₁ =>
      rw [forM_cons hrun] at h
      refine ih ?_ h
      rw [Call.run_stub hw hrun]
      exact hw.stubAfter c
    | error e w₁ =>
      change EStateM.bind (Call.run order c) (fun _ => history.forM (Call.run order)) w = _ at h
      rw [EStateM.bind, hrun] at h
      cases h

/-- The array has been sorted, and nothing else has changed. -/
structure Sorts (order : Order) (c : Call) (m m' : Memory) : Prop where
  sorted : ∀ i j, i ≤ j →
    ints order m' c.address c.elements.toNat i ≤ ints order m' c.address c.elements.toNat j
  rearranged : ∃ σ : Equiv.Perm (Fin c.elements.toNat),
    ints order m' c.address c.elements.toNat = ints order m c.address c.elements.toNat ∘ σ
  outside : ∀ x, x < c.address.toNat ∨ c.address.toNat + sizeofJint * c.elements.toNat ≤ x →
    m' x = m x

theorem sorted_sorts {order : Order} {c : Call}
    (hrange : c.address.toNat + sizeofJint * c.elements.toNat ≤ 2 ^ 64) (m : Memory) :
    Sorts order c m (sorted order c.sorter c.address c.elements m) where
  sorted i j hij := by
    rw [QSort.sorted, ints_permuted hrange]
    exact integerCompare_nonpos.mp
      ((c.sorter c.elements.toNat).sorts _ integerCompare_consistent i j hij)
  rearranged := ⟨_, ints_permuted hrange order m _⟩
  outside _ h := permuted_outside h

end FfiBenchmark.QSort
