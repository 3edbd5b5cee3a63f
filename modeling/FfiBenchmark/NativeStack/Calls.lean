/-
What any call on a stack can do (`Effect`), and what every call keeps.

A call throws and leaves the fields as they were, or it is a `push`, `close`
or `allocate` of the owner and changes them in one way. `Wf` is kept by all
of them, so it holds after any history of calls and handovers.
-/
import FfiBenchmark.NativeStack.Allocate

namespace FfiBenchmark.NativeStack

variable {Thread : Type}

/-- Everything a call `c` by `t` on `s` can do. -/
inductive Effect (t : Thread) (s : NativeStack Thread) :
    Call → EStateM.Result Exn (NativeStack Thread) Value → Prop where
  | threw {c : Call} (e : Exn) : Effect t s c (.error e s)
  | pushed {heap : Nat → Bool} (how : s.owner = some t) (room : s.CanPush heap) :
      Effect t s (.push heap) (.ok .this s.pushed)
  | closed {ms : List Long} {mark : Long} (how : s.owner = some t) (hm : s.marks = ms ++ [mark]) :
      Effect t s .close (.ok (.closed (decide s.Releases)) (s.closedAt mark))
  | allocated {byteSize byteAlignment : Long} {m : Nat} {slice : MemorySegment} {offset : Long}
      (how : s.owner = some t) (fit : s.FirstFit byteSize byteAlignment m)
      (aligned : byteAlignment.toNat ∣ slice.address.toNat)
      (placed : s.PlacedAt byteSize m slice offset) :
      Effect t s (.allocate byteSize byteAlignment) (.ok (.slice slice) { s with offset := offset })

theorem Wf.eq_nil_or_concat {s : NativeStack Thread} (h : s.Wf) :
    (s.marks = [] ∧ s.frameIndex = 0) ∨ ∃ ms mark, s.marks = ms ++ [mark] := by
  rcases List.eq_nil_or_concat s.marks with hnil | ⟨ms, mark, hm⟩
  · exact .inl ⟨hnil, by rw [← h.length_marks, hnil]; rfl⟩
  · exact .inr ⟨ms, mark, by rw [hm, List.concat_eq_append]⟩

theorem exec_push_cases [DecidableEq Thread] {s : NativeStack Thread} {t : Thread} (h : s.Wf)
    (how : s.owner = some t) (heap : Nat → Bool) :
    (s.CanPush heap ∧ exec t (.push heap) s = .ok .this s.pushed) ∨
    (¬ s.CanPush heap ∧ ∃ e, exec t (.push heap) s = .error e s) := by
  simp only [exec, Method.bind_apply]
  by_cases room : s.CanPush heap
  · exact .inl ⟨room, by rw [push_ok h how room]; rfl⟩
  · exact .inr ⟨room, _, by rw [push_full h how room]⟩

theorem exec_effect [DecidableEq Thread] {s : NativeStack Thread} (h : s.Wf) (t : Thread)
    (c : Call) :
    Effect t s c (exec t c s) := by
  by_cases how : s.owner = some t
  · cases c with
    | push heap =>
      rcases exec_push_cases h how heap with ⟨room, hexec⟩ | ⟨-, e, hexec⟩
      · rw [hexec]
        exact .pushed how room
      · rw [hexec]
        exact .threw e
    | close =>
      simp only [exec, Method.bind_apply]
      rcases h.eq_nil_or_concat with ⟨-, h0⟩ | ⟨ms, mark, hm⟩
      · rw [close_empty how h0]
        exact .threw _
      · rw [close_ok h how hm]
        exact .closed how hm
    | allocate byteSize byteAlignment =>
      simp only [exec, Method.bind_apply]
      rcases allocate_cases how h.offset_le byteSize byteAlignment with
        ⟨e, -, he⟩ | ⟨m, slice, offset, hfit, hdvd, hat, hok⟩
      · rw [he]
        exact .threw e
      · rw [hok]
        exact .allocated how hfit hdvd hat
  · rw [exec_foreign how]
    exact .threw wrongThread

/-- No call replaces the segment. -/
theorem Effect.segment {t : Thread} {s : NativeStack Thread} {c : Call}
    {r : EStateM.Result Exn (NativeStack Thread) Value} (h : Effect t s c r) :
    (Method.fields r).segment = s.segment := by
  cases h <;> rfl

/-! ## The fields after a call -/

section Fields

variable (s : NativeStack Thread) (mark : Long)

@[simp] theorem pushed_shared : s.pushed.shared = s.shared := rfl
@[simp] theorem pushed_owner : s.pushed.owner = s.owner := rfl
@[simp] theorem pushed_frameIndex : s.pushed.frameIndex = s.frameIndex + 1 := rfl
@[simp] theorem closedAt_frames : (s.closedAt mark).frames = s.frames := rfl
@[simp] theorem closedAt_frameIndex : (s.closedAt mark).frameIndex = s.frameIndex - 1 := rfl

theorem closedAt_owner : (s.closedAt mark).owner = if s.Releases then none else s.owner := rfl

theorem length_grown :
    s.grown.length =
      if s.frameIndex = s.frames.length then 2 * s.frames.length else s.frames.length := by
  unfold grown
  split <;> simp; omega

theorem length_pushed : s.pushed.frames.length = s.grown.length := by simp [pushed]

end Fields

namespace Wf

variable {s : NativeStack Thread} {ms : List Long} {mark : Long}

theorem lt_grown (h : s.Wf) : s.frameIndex < s.grown.length := by
  have hpos := h.frames_pos
  have hle := h.index_le
  rw [length_grown]
  split <;> omega

/-- A `push` saves the offset above the marks that were there. -/
theorem marks_pushed (h : s.Wf) : s.pushed.marks = s.marks ++ [s.offset] := by
  have hlt := h.lt_grown
  have hle := h.index_le
  have htake : s.grown.take s.frameIndex = s.frames.take s.frameIndex := by
    unfold grown
    split
    · rw [List.take_append_of_le_length hle]
    · rfl
  have hget : (s.grown.set s.frameIndex s.offset)[s.frameIndex]? = some s.offset := by simp [hlt]
  rw [marks, marks, pushed_frameIndex, List.take_add_one]
  change (s.grown.set s.frameIndex s.offset).take s.frameIndex ++
    (s.grown.set s.frameIndex s.offset)[s.frameIndex]?.toList = _
  rw [List.take_set_of_le (Nat.le_refl _), hget, htake]
  rfl

theorem frameIndex_eq (h : s.Wf) (hm : s.marks = ms ++ [mark]) : s.frameIndex = ms.length + 1 := by
  rw [← h.length_marks, hm]
  simp

/-- A `close` drops the last mark. -/
theorem marks_closedAt (h : s.Wf) (hm : s.marks = ms ++ [mark]) : (s.closedAt mark).marks = ms := by
  have hindex := h.frameIndex_eq hm
  have htake : (s.frames.take s.frameIndex).take ms.length = ms := by
    change s.marks.take ms.length = ms
    rw [hm, List.take_left]
  rw [List.take_take, Nat.min_eq_left (by omega)] at htake
  rw [marks, closedAt_frames, closedAt_frameIndex, hindex]
  exact htake

theorem pushed (h : s.Wf) {heap : Nat → Bool} (room : s.CanPush heap) : s.pushed.Wf where
  index_le := by
    rw [length_pushed]
    exact h.lt_grown
  frames_length := by
    obtain ⟨k, hk⟩ := h.frames_length
    rw [length_pushed, length_grown]
    split
    · exact ⟨k + 1, by rw [hk, Nat.pow_succ]; omega⟩
    · exact ⟨k, hk⟩
  frames_le := by
    rw [length_pushed, length_grown]
    split
    · obtain ⟨k, hk⟩ := h.frames_length
      have hlt : s.frames.length < 2 ^ 30 := by
        rcases room with hr | hr
        · omega
        · exact hr.1
      rw [hk, show 8 * 2 ^ k = 2 ^ (k + 3) by rw [Nat.pow_add]; omega] at hlt
      have hexp := (Nat.pow_lt_pow_iff_right (by decide : 1 < 2)).mp hlt
      calc 2 * s.frames.length = 2 ^ (k + 4) := by rw [hk, Nat.pow_add]; omega
        _ ≤ 2 ^ 30 := Nat.pow_le_pow_right (by decide) (by omega)
    · exact h.frames_le
  offset_le := h.offset_le
  marks_le m hm := by
    rw [h.marks_pushed, List.mem_append, List.mem_singleton] at hm
    rcases hm with hm | rfl
    · exact h.marks_le m hm
    · exact h.offset_le

theorem closedAt (h : s.Wf) (hm : s.marks = ms ++ [mark]) : (s.closedAt mark).Wf where
  index_le := by
    have := h.index_le
    rw [closedAt_frames, closedAt_frameIndex]
    omega
  frames_length := h.frames_length
  frames_le := h.frames_le
  offset_le := h.marks_le mark (by simp [hm])
  marks_le m hmem := by
    rw [h.marks_closedAt hm] at hmem
    exact h.marks_le m (by simp [hm, hmem])

theorem placed (h : s.Wf) {offset : Long} (hle : offset.toNat ≤ s.segment.byteSize.toNat) :
    ({ s with offset := offset } : NativeStack Thread).Wf :=
  ⟨h.index_le, h.frames_length, h.frames_le, hle, h.marks_le⟩

theorem changeOwner (h : s.Wf) (t : Thread) : (s.changeOwner t).Wf :=
  ⟨h.index_le, h.frames_length, h.frames_le, h.offset_le, h.marks_le⟩

/-- Every call keeps `Wf`. -/
theorem effect (h : s.Wf) {t : Thread} {c : Call}
    {r : EStateM.Result Exn (NativeStack Thread) Value} (he : Effect t s c r) :
    (Method.fields r).Wf := by
  cases he with
  | threw e => exact h
  | pushed how room => exact h.pushed room
  | closed how hm => exact h.closedAt hm
  | allocated how fit aligned placed => exact h.placed (placed.bounds fit).2.2

end Wf

/-! ## Histories -/

/-- What happens to a stack: a call, or `getStack` handing it from
`cachePool`, where it has no owner, to a thread. -/
inductive Event (Thread : Type) where
  | call (t : Thread) (c : Call)
  | handOver (t : Thread)

variable [DecidableEq Thread]

def Event.apply (s : NativeStack Thread) : Event Thread → NativeStack Thread
  | .call t c => Method.fields (exec t c s)
  | .handOver t => if s.shared = true ∧ s.owner = none then s.changeOwner t else s

/-- The fields after a history. -/
def after (s : NativeStack Thread) (history : List (Event Thread)) : NativeStack Thread :=
  history.foldl Event.apply s

/-- A state some history leads to from a constructor call. -/
def Reachable (s : NativeStack Thread) : Prop :=
  ∃ t segment shared history, s = after (new t segment shared) history

theorem Wf.apply {s : NativeStack Thread} (h : s.Wf) (e : Event Thread) : (e.apply s).Wf := by
  cases e with
  | call t c => exact h.effect (exec_effect h t c)
  | handOver t =>
    simp only [Event.apply]
    split
    · exact h.changeOwner t
    · exact h

theorem after_invariant (I : NativeStack Thread → Prop) (hstep : ∀ s e, I s → I (Event.apply s e))
    {s : NativeStack Thread} (h : I s) (history : List (Event Thread)) : I (s.after history) := by
  induction history generalizing s with
  | nil => exact h
  | cons e history ih => exact ih (hstep s e h)

theorem Wf.after {s : NativeStack Thread} (h : s.Wf) (history : List (Event Thread)) :
    (s.after history).Wf :=
  after_invariant Wf (fun _ e h => h.apply e) h history

theorem Reachable.new (t : Thread) (segment : MemorySegment) (shared : Bool) :
    (new t segment shared).Reachable :=
  ⟨t, segment, shared, [], rfl⟩

theorem Reachable.apply {s : NativeStack Thread} (h : s.Reachable) (e : Event Thread) :
    (e.apply s).Reachable := by
  obtain ⟨t, segment, shared, history, rfl⟩ := h
  exact ⟨t, segment, shared, history ++ [e],
    by simp only [NativeStack.after, List.foldl_append, List.foldl_cons, List.foldl_nil]⟩

theorem Reachable.wf {s : NativeStack Thread} (h : s.Reachable) : s.Wf := by
  obtain ⟨t, segment, shared, history, rfl⟩ := h
  exact (wf_new t segment shared).after history

/-- A stack without an owner has no frame left. -/
theorem Reachable.frameIndex_eq_zero {s : NativeStack Thread} (h : s.Reachable)
    (hnone : s.owner = none) :
    s.frameIndex = 0 := by
  obtain ⟨t, segment, shared, history, rfl⟩ := h
  refine (after_invariant (fun s => s.Wf ∧ (s.owner = none → s.frameIndex = 0)) ?_
    ⟨wf_new t segment shared, fun _ => rfl⟩ history).2 hnone
  intro s e hs
  refine ⟨hs.1.apply e, fun hnone => ?_⟩
  cases e with
  | call t c =>
    have he := exec_effect hs.1 t c
    simp only [Event.apply] at hnone ⊢
    generalize exec t c s = r at he hnone ⊢
    cases he with
    | threw e => exact hs.2 hnone
    | pushed how room => rw [Method.fields_ok, pushed_owner, how] at hnone; cases hnone
    | closed how hm =>
      rw [Method.fields_ok, closedAt_owner] at hnone
      split at hnone
      · next hrel => rw [Method.fields_ok, closedAt_frameIndex, hrel.1]
      · rw [how] at hnone
        cases hnone
    | allocated how fit aligned placed => rw [Method.fields_ok, how] at hnone; cases hnone
  | handOver t =>
    simp only [Event.apply] at hnone ⊢
    split at hnone
    · cases hnone
    · next hno =>
      rw [if_neg hno]
      exact hs.2 hnone

end FfiBenchmark.NativeStack
