/-
Two stacks that differ only in the length of `frames` (`Alike`) give the same
results, call by call, as long as the VM grants the shorter one the arrays
the longer one already has (`Grants`).

`frames` never shrinks: not on `close`, and not on the way through
`cachePool`. So this is what a stack that was used before and a stack that
was not have in common.
-/
import FfiBenchmark.NativeStack.Calls

namespace FfiBenchmark.NativeStack

variable {Thread : Type}

/-- The VM has room for every `frames` longer than `lo`, up to `hi`. -/
def Grants (heap : Nat → Bool) (lo hi : Nat) : Prop :=
  ∀ k, lo < 8 * 2 ^ k → 8 * 2 ^ k ≤ hi → heap (8 * 2 ^ k) = true

theorem Grants.trans {heap : Nat → Bool} {a b c : Nat} (h₁ : Grants heap a b)
    (h₂ : Grants heap b c) :
    Grants heap a c := by
  intro k hlo hhi
  rcases Nat.lt_or_ge b (8 * 2 ^ k) with hb | hb
  · exact h₂ k hb hhi
  · exact h₁ k hlo hb

theorem Grants.of_le {heap : Nat → Bool} {a b : Nat} (h : b ≤ a) : Grants heap a b :=
  fun _ hlo hhi => absurd (Nat.lt_of_lt_of_le hlo hhi) (by omega)

/-- Doubling a length of `frames` skips none. -/
theorem double_le {a b i j : Nat} (ha : a = 8 * 2 ^ i) (hb : b = 8 * 2 ^ j) (hlt : a < b) :
    a * 2 ≤ b := by
  have hij : i < j := (Nat.pow_lt_pow_iff_right (by decide : 1 < 2)).mp (by omega)
  have := Nat.pow_le_pow_right (show 0 < 2 by decide) hij
  rw [Nat.pow_succ] at this
  omega

/-- A `push` leaves `frames` at a length the VM granted. -/
theorem Wf.grants_pushed {s : NativeStack Thread} (h : s.Wf) {heap : Nat → Bool}
    (room : s.CanPush heap) :
    s.frames.length ≤ s.pushed.frames.length ∧
      Grants heap s.frames.length s.pushed.frames.length := by
  rw [length_pushed, length_grown]
  split
  · next hfull =>
    refine ⟨by omega, fun k hlo hhi => ?_⟩
    obtain ⟨i, hi⟩ := h.frames_length
    have hdouble := double_le hi (show 8 * 2 ^ k = 8 * 2 ^ k from rfl) hlo
    rcases room with hlt | ⟨-, hheap⟩
    · omega
    · rwa [show 8 * 2 ^ k = s.frames.length * 2 by omega]
  · exact ⟨Nat.le_refl _, .of_le (Nat.le_refl _)⟩

/-! ## Stacks alike -/

/-- `a` and `b` agree on every field, the unused part of `frames` apart, and
`a` has room for at least as many marks. -/
structure Alike (a b : NativeStack Thread) : Prop where
  wf_left : a.Wf
  wf_right : b.Wf
  shared : a.shared = b.shared
  owner : a.owner = b.owner
  segment : a.segment = b.segment
  offset : a.offset = b.offset
  marks : a.marks = b.marks
  length_le : b.frames.length ≤ a.frames.length

namespace Alike

variable {a b : NativeStack Thread}

theorem frameIndex (h : Alike a b) : a.frameIndex = b.frameIndex := by
  rw [← h.wf_left.length_marks, ← h.wf_right.length_marks, h.marks]

theorem releases (h : Alike a b) : a.Releases ↔ b.Releases := by
  rw [Releases, Releases, h.frameIndex, h.shared]

theorem length_eq_of_full (h : Alike a b) (hfull : a.frameIndex = a.frames.length) :
    a.frames.length = b.frames.length := by
  have hindex := h.frameIndex
  have hle := h.wf_right.index_le
  have hlen := h.length_le
  omega

/-- With the arrays of `a` granted, `a` and `b` find room for a mark together. -/
theorem canPush (h : Alike a b) {heap : Nat → Bool}
    (hg : Grants heap b.frames.length a.frames.length) :
    a.CanPush heap ↔ b.CanPush heap := by
  have hindex := h.frameIndex
  have hlen := h.length_le
  have hle := h.wf_left.frames_le
  obtain ⟨i, hi⟩ := h.wf_left.frames_length
  obtain ⟨j, hj⟩ := h.wf_right.frames_length
  rcases Nat.lt_or_ge b.frames.length a.frames.length with hlt | hge
  · refine ⟨fun _ => ?_, fun _ => .inl (by have := h.wf_right.index_le; omega)⟩
    have hdouble := double_le hj hi hlt
    refine .inr ⟨by omega, ?_⟩
    have hnext : b.frames.length * 2 = 8 * 2 ^ (j + 1) := by rw [hj, Nat.pow_succ]; omega
    rw [hnext]
    exact hg (j + 1) (by have := h.wf_right.frames_pos; omega) (by omega)
  · have heq : a.frames.length = b.frames.length := by omega
    rw [CanPush, CanPush, hindex, heq]

/-- `a'` and `b'` are alike again, and need no arrays that `a` and `b` did not. -/
structure Next (a b a' b' : NativeStack Thread) : Prop where
  alike : Alike a' b'
  grants : ∀ {heap}, Grants heap b.frames.length a.frames.length →
    Grants heap b'.frames.length a'.frames.length

theorem Next.refl (h : Alike a b) : Next a b a b := ⟨h, fun hg => hg⟩

theorem Next.trans {a' b' a'' b'' : NativeStack Thread} (h₁ : Next a b a' b')
    (h₂ : Next a' b' a'' b'') :
    Next a b a'' b'' :=
  ⟨h₂.alike, fun hg => h₂.grants (h₁.grants hg)⟩

theorem pushed (h : Alike a b) {heap : Nat → Bool} (ha : a.CanPush heap) (hb : b.CanPush heap) :
    Next a b a.pushed b.pushed := by
  have hindex := h.frameIndex
  have hlen := h.length_le
  obtain ⟨i, hi⟩ := h.wf_left.frames_length
  obtain ⟨j, hj⟩ := h.wf_right.frames_length
  have hgrown : b.grown.length ≤ a.grown.length ∧
    ∀ {heap'}, Grants heap' b.frames.length a.frames.length →
      Grants heap' b.grown.length a.grown.length := by
    rw [length_grown, length_grown]
    by_cases hfull : a.frameIndex = a.frames.length
    · have heq := h.length_eq_of_full hfull
      rw [if_pos hfull, if_pos (by omega)]
      exact ⟨by omega, fun _ => .of_le (by omega)⟩
    · rw [if_neg hfull]
      split
      · have hdouble := double_le hj hi (by have := h.wf_left.index_le; omega)
        exact ⟨by omega, fun hg k hlo hhi => hg k (by omega) hhi⟩
      · exact ⟨hlen, fun hg => hg⟩
  refine ⟨⟨h.wf_left.pushed ha, h.wf_right.pushed hb, h.shared, h.owner, h.segment, h.offset, ?_,
    ?_⟩, ?_⟩
  · rw [h.wf_left.marks_pushed, h.wf_right.marks_pushed, h.marks, h.offset]
  · rw [length_pushed, length_pushed]
    exact hgrown.1
  · rw [length_pushed, length_pushed]
    exact hgrown.2

theorem closedAt (h : Alike a b) {ms : List Long} {mark : Long} (hm : b.marks = ms ++ [mark]) :
    Next a b (a.closedAt mark) (b.closedAt mark) := by
  have hma : a.marks = ms ++ [mark] := h.marks.trans hm
  refine ⟨⟨h.wf_left.closedAt hma, h.wf_right.closedAt hm, h.shared, ?_, h.segment, rfl, ?_,
    h.length_le⟩, fun hg => hg⟩
  · rw [closedAt_owner, closedAt_owner, h.owner]
    simp only [h.releases]
  · rw [h.wf_left.marks_closedAt hma, h.wf_right.marks_closedAt hm]

variable [DecidableEq Thread]

/-- Stacks alike push a mark both, or throw the same exception. -/
theorem exec_push (h : Alike a b) {t : Thread} (how : b.owner = some t) {heap : Nat → Bool}
    (hg : Grants heap b.frames.length a.frames.length) :
    (a.CanPush heap ∧ b.CanPush heap ∧ NativeStack.exec t (.push heap) a = .ok .this a.pushed ∧
      NativeStack.exec t (.push heap) b = .ok .this b.pushed) ∨
    ∃ e, NativeStack.exec t (.push heap) a = .error e a ∧
      NativeStack.exec t (.push heap) b = .error e b := by
  have howa : a.owner = some t := h.owner.trans how
  have hiff := h.canPush hg
  simp only [NativeStack.exec, Method.bind_apply]
  by_cases hb : b.CanPush heap
  · have ha := hiff.mpr hb
    refine .inl ⟨ha, hb, ?_, ?_⟩
    · rw [push_ok h.wf_left howa ha]
      rfl
    · rw [push_ok h.wf_right how hb]
      rfl
  · have ha : ¬ a.CanPush heap := fun ha => hb (hiff.mp ha)
    have hfull : a.frameIndex = a.frames.length := by
      have := h.wf_left.index_le
      simp only [CanPush, not_or] at ha
      omega
    exact .inr ⟨_, by rw [push_full h.wf_left howa ha, h.length_eq_of_full hfull],
      by rw [push_full h.wf_right how hb]⟩

/-- **Stacks alike give the same results**, and stay alike. -/
theorem exec (h : Alike a b) (t : Thread) (c : Call)
    (hg : ∀ heap, c = .push heap → Grants heap b.frames.length a.frames.length) :
    Loop.outcome (exec t c a) = Loop.outcome (exec t c b) ∧
      Next a b (Method.fields (NativeStack.exec t c a))
        (Method.fields (NativeStack.exec t c b)) := by
  by_cases how : b.owner = some t
  · have howa : a.owner = some t := h.owner.trans how
    cases c with
    | push heap =>
      rcases h.exec_push how (hg heap rfl) with ⟨ha, hb, hpa, hpb⟩ | ⟨e, hpa, hpb⟩
      · rw [hpa, hpb]
        exact ⟨rfl, h.pushed ha hb⟩
      · rw [hpa, hpb]
        exact ⟨rfl, .refl h⟩
    | close =>
      simp only [NativeStack.exec, Method.bind_apply]
      rcases h.wf_right.eq_nil_or_concat with ⟨-, h0⟩ | ⟨ms, mark, hm⟩
      · rw [close_empty howa (h.frameIndex.trans h0), close_empty how h0]
        exact ⟨rfl, .refl h⟩
      · rw [close_ok h.wf_left howa (h.marks.trans hm), close_ok h.wf_right how hm]
        refine ⟨?_, h.closedAt hm⟩
        simp only [Method.pure_apply, Loop.outcome_ok, h.releases]
    | allocate byteSize byteAlignment =>
      have hsame : place a.segment a.offset byteSize byteAlignment =
          place b.segment b.offset byteSize byteAlignment := by rw [h.segment, h.offset]
      simp only [NativeStack.exec, Method.bind_apply]
      rw [allocate_eq, allocate_eq, if_pos how, if_pos howa, hsame]
      cases hplace : place b.segment b.offset byteSize byteAlignment with
      | error e => exact ⟨rfl, .refl h⟩
      | ok p =>
        have hcases := place_cases b h.wf_right.offset_le byteSize byteAlignment
        rw [hplace] at hcases
        rcases hcases with ⟨m, slice, offset, hfit, hok, -, hat⟩ | ⟨e, -, herr⟩
        · cases hok
          have hle := (hat.bounds hfit).2.2
          exact ⟨rfl, ⟨h.wf_left.placed (h.segment ▸ hle), h.wf_right.placed hle, h.shared,
            howa.trans how.symm, h.segment, rfl, h.marks, h.length_le⟩, fun hg => hg⟩
        · cases herr
  · have howa : a.owner ≠ some t := fun ha => how (h.owner.symm.trans ha)
    rw [exec_foreign how, exec_foreign howa]
    exact ⟨rfl, .refl h⟩

end Alike

/-! ## Sequences of calls -/

variable [DecidableEq Thread]

/-- The results of a sequence of calls, and the fields after it. -/
def results (s : NativeStack Thread) :
    List (Thread × Call) → List (Except Exn Value) × NativeStack Thread
  | [] => ([], s)
  | (t, c) :: calls =>
    let r := exec t c s
    let (out, s') := (Method.fields r).results calls
    (Loop.outcome r :: out, s')

theorem Alike.results {a b : NativeStack Thread} (h : Alike a b) (calls : List (Thread × Call))
    (hg : ∀ t heap, (t, .push heap) ∈ calls → Grants heap b.frames.length a.frames.length) :
    (a.results calls).1 = (b.results calls).1 ∧
      Alike.Next a b (a.results calls).2 (b.results calls).2 := by
  induction calls generalizing a b with
  | nil => exact ⟨rfl, .refl h⟩
  | cons call calls ih =>
    obtain ⟨t, c⟩ := call
    obtain ⟨hout, hnext⟩ := h.exec t c fun heap hc => hg t heap (by simp [hc])
    obtain ⟨hrest, hnext'⟩ :=
      ih hnext.alike fun t' heap' hmem => hnext.grants (hg t' heap' (by simp [hmem]))
    refine ⟨?_, hnext.trans hnext'⟩
    simp only [NativeStack.results, hout, hrest]

end FfiBenchmark.NativeStack
