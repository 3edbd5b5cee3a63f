/-
What a recycled stack has kept from its former owners.

`close` goes back to the offset its frame began at, so what is allocated in a
frame is gone with it. What is allocated outside of every frame is not: it moves
the offset the outermost frame begins at (`base`), which no call lowers again,
and `cachePool` keeps the stack with it. A stack from `cachePool` is like a new
one just when that never happened to it.
-/
import FfiBenchmark.NativeStack.LikeNew
import FfiBenchmark.Pool.Histories

namespace FfiBenchmark.Pool

open NativeStack (Call)

variable {Thread : Type}

/-- The step is an `allocate` on the stack `r` by its owner, outside of every
frame, for which there is room, and not of nothing at the very start. -/
def OutsideFrame (r : Nat) (e : Runs.Step (State Thread) (Label Thread) Outcome) : Prop :=
  ∃ t byteSize byteAlignment x m, e.label = .thread t (.allocate r byteSize byteAlignment) ∧
    e.before.objects[r]? = some x ∧ x.owner = some t ∧ x.frameIndex = 0 ∧
    x.FirstFit byteSize byteAlignment m ∧ x.segment.address.toNat < m + byteSize.toNat

theorem base_allocated {x : NativeStack Thread} (h : x.Wf) {t : Thread} (how : x.owner = some t)
    {byteSize byteAlignment : Long} {m : Nat} {slice : MemorySegment} {offset : Long}
    (hfit : x.FirstFit byteSize byteAlignment m) (hat : x.PlacedAt byteSize m slice offset) :
    ({ x with offset := offset } : NativeStack Thread).base = 0 ↔ x.base = 0 ∧
      ¬ ∃ byteSize' byteAlignment' m', Call.allocate byteSize byteAlignment =
        .allocate byteSize' byteAlignment' ∧
        x.owner = some t ∧ x.frameIndex = 0 ∧ x.FirstFit byteSize' byteAlignment' m' ∧
        x.segment.address.toNat < m' + byteSize'.toNat := by
  by_cases h0 : x.frameIndex = 0
  · have hge := hfit.least.1.2
    have hend : x.segment.address.toNat + offset.toNat = m + byteSize.toNat := by
      have hoffset := hat.offset
      have hnonneg : 0 ≤ offset.toInt := by have := hfit.size_nonneg; omega
      rw [toInt_eq_toNat hnonneg, toInt_eq_toNat hfit.size_nonneg] at hoffset
      omega
    rw [NativeStack.base_of_frameIndex h0,
      NativeStack.base_of_frameIndex (s := { x with offset := offset }) h0]
    constructor
    · intro hzero
      have hoffset : offset.toNat = 0 := congrArg BitVec.toNat hzero
      have hold : x.offset.toNat = 0 := by omega
      refine ⟨BitVec.eq_of_toNat_eq hold, ?_⟩
      intro hex
      obtain ⟨_, _, m', heq, -, -, hfit', hlt⟩ := hex
      cases heq
      have hm : m' = m := hfit'.least.unique hfit.least
      omega
    · intro hex
      obtain ⟨hzero, hno⟩ := hex
      have hle : ¬ x.segment.address.toNat < m + byteSize.toNat :=
        fun hlt => hno ⟨_, _, m, rfl, how, h0, hfit, hlt⟩
      have hoffset : offset.toNat = 0 := by omega
      exact BitVec.eq_of_toNat_eq hoffset
  · rcases h.eq_nil_or_concat with ⟨-, hindex⟩ | ⟨ms, mark, hm⟩
    · exact absurd hindex h0
    · rw [NativeStack.base_of_marks hm,
        NativeStack.base_of_marks (s := { x with offset := offset }) hm]
      refine (and_iff_left ?_).symm
      intro hex
      obtain ⟨_, _, _, -, -, hindex, -⟩ := hex
      exact h0 hindex

/-- What a step does to the bases: it moves them only by an `allocate` outside
of a frame. -/
def BaseStep (e : Runs.Step (State Thread) (Label Thread) Outcome) (s' : State Thread) : Prop :=
  ∀ (r : Nat) x', s'.objects[r]? = some x' →
    (∃ x, e.before.objects[r]? = some x ∧ (x'.base = 0 ↔ x.base = 0 ∧ ¬ OutsideFrame r e)) ∨
      e.before.objects.length ≤ r ∧ x'.base = 0

section Steps

variable {s s' : State Thread} {t : Thread} {r : Nat} {x x' : NativeStack Thread} {act : Act}
  {out : Outcome} {l : Label Thread}

theorem not_outsideFrame (hact : ∀ t r n a, l ≠ .thread t (.allocate r n a)) (r : Nat) :
    ¬ OutsideFrame r ⟨s, l, out⟩ := by
  intro hex
  obtain ⟨t, n, a, x, m, hl, -⟩ := hex
  exact hact t r n a hl

theorem baseStep_same (hobjects : s'.objects = s.objects)
    (hact : ∀ t r n a, l ≠ .thread t (.allocate r n a)) :
    BaseStep ⟨s, l, out⟩ s' := by
  intro r x' hx'
  rw [hobjects] at hx'
  exact .inl ⟨x', hx', (and_iff_left (not_outsideFrame hact r)).symm⟩

theorem baseStep_set (hx : s.objects[r]? = some x) (hobjects : s'.objects = s.objects.set r x')
    (hbase : x'.base = 0 ↔ x.base = 0 ∧ ¬ OutsideFrame r ⟨s, l, out⟩)
    (hact : ∀ r', r' ≠ r → ¬ OutsideFrame r' ⟨s, l, out⟩) : BaseStep ⟨s, l, out⟩ s' := by
  intro r' y hy
  rw [hobjects] at hy
  obtain ⟨rfl, rfl⟩ | ⟨hne, hy⟩ := Table.set_cases hy
  · exact .inl ⟨x, hx, hbase⟩
  · exact .inl ⟨y, hy, (and_iff_left (hact r' hne)).symm⟩

theorem baseStep_write (hx : s.objects[r]? = some x) (hobjects : s'.objects = s.objects.set r x')
    (hbase : x'.base = x.base) (hact : ∀ t r n a, l ≠ .thread t (.allocate r n a)) :
    BaseStep ⟨s, l, out⟩ s' := by
  refine baseStep_set hx hobjects ?_ fun r' _ => not_outsideFrame hact r'
  rw [hbase]
  exact (and_iff_left (not_outsideFrame hact r)).symm

theorem baseStep_made {segment : MemorySegment} {shared : Bool}
    (hobjects : s'.objects = s.objects ++ [.new t segment shared])
    (hact : ∀ t r n a, l ≠ .thread t (.allocate r n a)) :
    BaseStep ⟨s, l, out⟩ s' := by
  intro r x' hx'
  rw [hobjects] at hx'
  rcases Nat.lt_or_ge r s.objects.length with hlt | hge
  · rw [List.getElem?_append_left hlt] at hx'
    exact .inl ⟨x', hx', (and_iff_left (not_outsideFrame hact r)).symm⟩
  · rw [List.getElem?_append_right hge, List.getElem?_singleton] at hx'
    split at hx'
    · cases hx'
      exact .inr ⟨hge, rfl⟩
    · cases hx'

variable [DecidableEq Thread]

/-- A call moves the base only outside of every frame, and never to the start. -/
theorem base_exec (h : x.Wf) {c : Call} (hc : c ≠ .close) :
    (Method.fields (NativeStack.exec t c x)).base = 0 ↔ x.base = 0 ∧
      ¬ ∃ byteSize byteAlignment m, c = .allocate byteSize byteAlignment ∧ x.owner = some t ∧
        x.frameIndex = 0 ∧
        x.FirstFit byteSize byteAlignment m ∧ x.segment.address.toNat < m + byteSize.toNat := by
  by_cases how : x.owner = some t
  · cases c with
    | push heap =>
      rcases NativeStack.exec_push_cases h how heap with ⟨room, hexec⟩ | ⟨-, e, hexec⟩
      · simp [hexec, h.base_pushed]
      · simp [hexec]
    | close => exact absurd rfl hc
    | allocate byteSize byteAlignment =>
      simp only [NativeStack.exec, Method.bind_apply]
      rcases NativeStack.allocate_cases how h.offset_le byteSize byteAlignment with
        ⟨e, hno, herr⟩ | ⟨m, slice, offset, hfit, -, hat, hok⟩
      · rw [herr]
        refine (and_iff_left ?_).symm
        intro hex
        obtain ⟨_, _, m, heq, -, -, hfit, -⟩ := hex
        cases heq
        exact hno m hfit
      · rw [hok]
        exact base_allocated h how hfit hat
  · rw [NativeStack.exec_foreign how]
    simp [how]

theorem outsideFrame_called {c : Call} (hcall : s.Calls t act r c) (hx : s.objects[r]? = some x)
    (r' : Nat) :
    OutsideFrame r' ⟨s, .thread t act, out⟩ ↔ r' = r ∧ ∃ byteSize byteAlignment m,
      c = .allocate byteSize byteAlignment ∧ x.owner = some t ∧ x.frameIndex = 0 ∧
        x.FirstFit byteSize byteAlignment m ∧ x.segment.address.toNat < m + byteSize.toNat := by
  cases hcall with
  | push hpc | pushStack hpc =>
    refine iff_of_false (not_outsideFrame (by simp) r') ?_
    intro hex
    obtain ⟨-, _, _, _, heq, -⟩ := hex
    cases heq
  | @allocate _ n a hpc =>
    constructor
    · intro hex
      obtain ⟨t', n', a', y, m, hl, hy, how, h0, hfit, hlt⟩ := hex
      cases hl
      rw [hx] at hy
      cases hy
      exact ⟨rfl, n, a, m, rfl, how, h0, hfit, hlt⟩
    · intro hex
      obtain ⟨rfl, n', a', m, heq, how, h0, hfit, hlt⟩ := hex
      cases heq
      exact ⟨t, n, a, x, m, rfl, hx, how, h0, hfit, hlt⟩

theorem baseStep_moves {cfg : Config Thread} {place : Nat → Place Thread} (h : Histories cfg s)
    (hc : Custody cfg s place) (hm : Moves cfg s t act out s') :
    BaseStep ⟨s, .thread t act, out⟩ s' := by
  cases hm with
  | @called act r c x hcall hx =>
    have hc : c ≠ .close := by cases hcall <;> simp
    refine baseStep_set hx rfl ?_ fun r' hr' => ?_
    · rw [base_exec (h.trail r x hx).wf hc, outsideFrame_called hcall hx, and_iff_right rfl]
    · rw [outsideFrame_called hcall hx]
      exact fun hn => hr' hn.1
  | took hpc hv hpool hx => exact baseStep_write hx rfl rfl (by simp)
  | madeShared hpc hv hpool hsize => exact baseStep_made rfl (by simp)
  | madeConfined hpc hv hsize => exact baseStep_made rfl (by simp)
  | @restored vm r x prevIndex mark hpc hx hmark =>
    have hm := (marks_concat (h.trail r x hx).wf (h.index t r prevIndex x hpc hx) hmark).1
    refine baseStep_write hx rfl ?_ (by simp)
    rw [NativeStack.base_of_marks hm, NativeStack.base_of_marks (s := { x with offset := mark }) hm]
  | @dropped vm r x prevIndex hpc hx =>
    have halone := hc.alone (.inl (hc.holder_of_stack (by rw [hpc]; rfl)))
    obtain ⟨x₀, ms, mark, hreach, how, hm, hpart⟩ :=
      (h.trail r x hx).partway_of halone (by rw [hpc]; rfl)
    rw [hpc] at hpart
    obtain ⟨rfl, rfl⟩ := hpart
    refine baseStep_write hx rfl ?_ (by simp)
    have hms : x₀.frames.take ms.length = ms := by
      have := hreach.wf.marks_closedAt hm
      rwa [NativeStack.marks, NativeStack.closedAt_frames, NativeStack.closedAt_frameIndex,
        hreach.wf.frameIndex_eq hm] at this
    rw [NativeStack.base_of_marks (s := { x₀ with offset := mark }) hm]
    simp only [NativeStack.base, NativeStack.marks, hms]
  | disowned hpc hx => exact baseStep_write hx rfl rfl (by simp)
  | hit thenPush hpc hb => exact baseStep_same rfl (by cases thenPush <;> simp [ask])
  | missed thenPush hpc hb => exact baseStep_same rfl (by cases thenPush <;> simp [ask])
  | _ => exact baseStep_same rfl (by simp)

theorem length_le_moves {cfg : Config Thread} (hm : Moves cfg s t act out s') :
    s.objects.length ≤ s'.objects.length := by
  cases hm <;> simp

end Steps

variable [DecidableEq Thread] {cfg : Config Thread} {trace : Trace Thread} {s : State Thread}
  {r : Nat} {x : NativeStack Thread}

theorem Run.base_and_fresh (h : Run cfg trace s) (r : Nat) :
    (∀ x, s.objects[r]? = some x → (x.base = 0 ↔ ∀ e ∈ trace, ¬ OutsideFrame r e)) ∧
      (s.objects.length ≤ r → ∀ e ∈ trace, ¬ OutsideFrame r e) := by
  induction h with
  | nil => simp [State.init]
  | @snoc trace s l out s' run hs ih =>
    obtain ⟨place, hc, hh⟩ := Run.holds run
    have hbase : BaseStep ⟨s, l, out⟩ s' ∧ s.objects.length ≤ s'.objects.length := by
      rcases step_cases hs with ⟨t, act, rfl, -, -, hm⟩ | ⟨i, c, rfl, -, -, -, -, rfl⟩
      · exact ⟨baseStep_moves hh hc hm, length_le_moves hm⟩
      · exact ⟨baseStep_same rfl (by simp), Nat.le_refl _⟩
    have hnew : s.objects.length ≤ r → ¬ OutsideFrame r ⟨s, l, out⟩ := by
      intro hle hex
      obtain ⟨_, _, _, y, _, -, hy, -⟩ := hex
      rw [List.getElem?_eq_none hle] at hy
      cases hy
    simp only [List.forall_mem_append, List.forall_mem_singleton]
    refine ⟨fun x' hx' => ?_, fun hle => ?_⟩
    · rcases hbase.1 r x' hx' with ⟨x, hx, hiff⟩ | ⟨hle, hzero⟩
      · rw [hiff, ih.1 x hx]
      · exact iff_of_true hzero ⟨ih.2 hle, hnew hle⟩
    · have hle' : s.objects.length ≤ r := hbase.2.trans hle
      exact ⟨ih.2 hle', hnew hle'⟩

/-- What a stack in `cachePool` has kept is what was allocated on it outside of frames. -/
theorem Run.base_eq_zero_iff (h : Run cfg trace s) (hx : s.objects[r]? = some x) :
    x.base = 0 ↔ ∀ e ∈ trace, ¬ OutsideFrame r e :=
  (h.base_and_fresh r).1 x hx

/-- The stacks in `cachePool` have no frame, and a segment of the right size. -/
theorem Run.pooled (h : Run cfg trace s) (hmem : r ∈ s.cachePool) :
    ∃ x, s.objects[r]? = some x ∧ x.frameIndex = 0 ∧ x.segment.byteSize = cfg.stackSize ∧
      (x.LikeNew ↔ x.offset = 0) := by
  obtain ⟨place, hc, hh⟩ := h.holds
  have hp : place r = .pooled := hc.at_place (.pooled hmem)
  obtain ⟨x, hx, hshared⟩ := (hc.stack r).shared hp
  have how : x.owner = none := by rw [hc.owner_eq (by simp [hp]) hx, hp]; rfl
  have hreach : x.Reachable := h.stack_reachable hx fun t hpart => by
    have := hc.holder_of_stack (Pc.stack_of_partway hpart)
    rw [hp] at this
    cases this
  have h0 := hreach.frameIndex_eq_zero how
  exact ⟨x, hx, h0, hh.size r x hx, NativeStack.likeNew_iff hreach.wf hshared h0 cfg.cleaner⟩

/-- **A recycled stack is like a new one just when nobody allocated on it
outside of frames.** A stack in `cachePool` has no frame, and a segment of
`STACK_SIZE` bytes. It gives its next owner the results of a new stack, whatever
the calls, if and only if its offset is `0`; and that is so if and only if no
step of the run was an `allocate` on it outside of every frame that took room. -/
theorem recycled_like_new (h : Run cfg trace s) (hmem : r ∈ s.cachePool) :
    ∃ x, s.objects[r]? = some x ∧ x.frameIndex = 0 ∧ x.segment.byteSize = cfg.stackSize ∧
      (x.LikeNew ↔ x.offset = 0) ∧ (x.LikeNew ↔ ∀ e ∈ trace, ¬ OutsideFrame r e) := by
  obtain ⟨x, hx, h0, hsize, hlike⟩ := h.pooled hmem
  refine ⟨x, hx, h0, hsize, hlike, ?_⟩
  rw [hlike, ← NativeStack.base_of_frameIndex h0]
  exact h.base_eq_zero_iff hx

/-- A virtual thread allocates in a frame; the next one finds the stack like new. -/
theorem recycled_like_new_after_frame :
    let cfg : Config Nat := ⟨64, by decide, 8, fun _ => true, 99⟩
    ∃ trace s, Run cfg trace s ∧ 0 ∈ s.cachePool ∧ ∃ x, s.objects[0]? = some x ∧ x.frameIndex = 0 ∧
      x.segment.byteSize = cfg.stackSize ∧ (x.LikeNew ↔ x.offset = 0) ∧
        (x.LikeNew ↔ ∀ e ∈ trace, ¬ OutsideFrame 0 e) := by
  intro cfg
  let next (t : Nat) : Label Nat :=
    .thread t (.next ⟨fun _ => true, some ⟨0x1000, 64, by decide, by decide⟩⟩)
  obtain ⟨s, hs⟩ : ∃ s, Runs.final (State.step cfg) (State.init Nat)
      (.thread 0 .pushStack :: List.replicate 3 (next 0) ++ .thread 0 (.allocate 0 16 8) ::
        .thread 0 (.close 0) :: List.replicate 7 (next 0)) = some s := ⟨_, rfl⟩
  obtain ⟨trace, hrun⟩ : ∃ trace, Run cfg trace s := Runs.exists_run hs
  have hmem : 0 ∈ s.cachePool := by
    cases hs
    decide
  exact ⟨trace, s, hrun, hmem, recycled_like_new hrun hmem⟩

/-- A virtual thread allocates 16 bytes before its first `push`; the next thread
finds its stack with 48 bytes. -/
theorem recycled_unlike_new :
    let cfg : Config Nat := ⟨64, by decide, 8, fun _ => true, 99⟩
    ¬ ∀ trace s, Run cfg trace s → ∀ r ∈ s.cachePool, ∃ x, s.objects[r]? = some x ∧ x.LikeNew := by
  intro cfg hlike
  let next (t : Nat) : Label Nat :=
    .thread t (.next ⟨fun _ => true, some ⟨0x1000, 64, by decide, by decide⟩⟩)
  obtain ⟨s, hs⟩ : ∃ s, Runs.final (State.step cfg) (State.init Nat)
      (.thread 0 .getStack :: List.replicate 2 (next 0) ++ .thread 0 (.allocate 0 16 8) ::
        .thread 0 (.push 0 fun _ => true) :: .thread 0 (.close 0) :: List.replicate 7 (next 0)) =
          some s := ⟨_, rfl⟩
  obtain ⟨trace, hrun⟩ : ∃ trace, Run cfg trace s := Runs.exists_run hs
  have hmem : 0 ∈ s.cachePool := by
    cases hs
    decide
  have hoffset : (s.objects[0]?).map (·.offset) = some 16 := by
    cases hs
    decide
  obtain ⟨x, hx, hnew⟩ := hlike trace s hrun 0 hmem
  obtain ⟨x', hx', -, -, hlike⟩ := hrun.pooled hmem
  rw [hx] at hx'
  cases hx'
  rw [hx, Option.map_some, hlike.mp hnew] at hoffset
  cases hoffset

end FfiBenchmark.Pool
