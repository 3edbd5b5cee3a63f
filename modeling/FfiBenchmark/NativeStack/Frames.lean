/-
A closed frame leaves no trace.

`Nested me` is what the owner `me` runs between a `push` and its `close`:
allocations, calls other threads try, and inner frames to any depth, each a
`push`, a body and a `close` as in `try (NativeStack stack = …)` (a `push`
that throws skips both). Whatever the body does, the `close` finds the marks
the `push` left, so offset, `frameIndex` and the saved offsets come back; only
`frames` may be longer, and stacks that differ in that are `Alike`.
-/
import FfiBenchmark.NativeStack.Alike

namespace FfiBenchmark.NativeStack

variable {Thread : Type}

/-- A well-nested sequence of calls, as its owner `me` runs it. -/
inductive Nested (me : Thread) where
  | done
  | allocate (byteSize byteAlignment : Long) (rest : Nested me)
  | foreign (t : Thread) (ht : t ≠ me) (c : Call) (rest : Nested me)
  | frame (heap : Nat → Bool) (body rest : Nested me)

namespace Nested

variable {me : Thread}

/-- Every `push` of the sequence finds the VM with the same room. -/
def Uses (heap : Nat → Bool) : Nested me → Prop
  | .done => True
  | .allocate _ _ rest => rest.Uses heap
  | .foreign _ _ _ rest => rest.Uses heap
  | .frame heap' body rest => heap' = heap ∧ body.Uses heap ∧ rest.Uses heap

variable [DecidableEq Thread]

/-- The results of the calls made, and the fields after them. -/
def run (s : NativeStack Thread) : Nested me → List (Except Exn Value) × NativeStack Thread
  | .done => ([], s)
  | .allocate byteSize byteAlignment rest =>
    let r := exec me (.allocate byteSize byteAlignment) s
    let (out, s') := rest.run (Method.fields r)
    (Loop.outcome r :: out, s')
  | .foreign t _ c rest =>
    let r := exec t c s
    let (out, s') := rest.run (Method.fields r)
    (Loop.outcome r :: out, s')
  | .frame heap body rest =>
    match exec me (.push heap) s with
    | .error e s' =>
      let (out, s'') := rest.run s'
      (.error e :: out, s'')
    | .ok v s' =>
      let (out, s₁) := body.run s'
      let r := exec me .close s₁
      let (out', s₂) := rest.run (Method.fields r)
      (.ok v :: out ++ Loop.outcome r :: out', s₂)

end Nested

/-- What a body keeps of the fields of the stack it runs in. -/
structure Keeps (s s' : NativeStack Thread) : Prop where
  wf : s'.Wf
  shared : s'.shared = s.shared
  owner : s'.owner = s.owner
  segment : s'.segment = s.segment
  marks : s'.marks = s.marks

namespace Keeps

variable {s s' s'' : NativeStack Thread}

theorem refl (h : s.Wf) : Keeps s s := ⟨h, rfl, rfl, rfl, rfl⟩

theorem trans (h₁ : Keeps s s') (h₂ : Keeps s' s'') : Keeps s s'' :=
  ⟨h₂.wf, h₂.shared.trans h₁.shared, h₂.owner.trans h₁.owner, h₂.segment.trans h₁.segment,
    h₂.marks.trans h₁.marks⟩

theorem frameIndex (hs : s.Wf) (h : Keeps s s') : s'.frameIndex = s.frameIndex := by
  rw [← h.wf.length_marks, ← hs.length_marks, h.marks]

end Keeps

variable {s s₁ : NativeStack Thread} {me : Thread}

/-- The body of a frame leaves its mark on top. -/
theorem Keeps.marks_eq (h : s.Wf) (hk : Keeps s.pushed s₁) : s₁.marks = s.marks ++ [s.offset] :=
  hk.marks.trans h.marks_pushed

/-- Closing a frame gives the stack up only if the frame is the outermost. -/
theorem Keeps.releases (h : s.Wf) (hk : Keeps s.pushed s₁) :
    s₁.Releases ↔ s.frameIndex = 0 ∧ s.shared = true := by
  have hindex := hk.wf.frameIndex_eq (hk.marks_eq h)
  rw [h.length_marks] at hindex
  rw [Releases, hindex, hk.shared, pushed_shared]
  exact and_congr (by omega) Iff.rfl

/-- An inner frame keeps what a body keeps. -/
theorem closedAt_keeps (h : s.Wf) (hinner : s.frameIndex ≠ 0) (hk : Keeps s.pushed s₁) :
    Keeps s (s₁.closedAt s.offset) := by
  have hm := hk.marks_eq h
  have hrel : ¬ s₁.Releases := fun hr => hinner ((hk.releases h).mp hr).1
  refine ⟨hk.wf.closedAt hm, hk.shared, ?_, hk.segment, hk.wf.marks_closedAt hm⟩
  rw [closedAt_owner, if_neg hrel, hk.owner, pushed_owner]

variable [DecidableEq Thread]

theorem exec_allocate_keeps (h : s.Wf) (me : Thread) (byteSize byteAlignment : Long) :
    Keeps s (Method.fields (exec me (.allocate byteSize byteAlignment) s)) := by
  have he := exec_effect h me (.allocate byteSize byteAlignment)
  have hwf := h.effect he
  generalize exec me (.allocate byteSize byteAlignment) s = r at he hwf ⊢
  cases he with
  | threw e => exact .refl h
  | allocated how fit aligned placed => exact ⟨hwf, rfl, rfl, rfl, rfl⟩

/-- The `close` that matches a `push`, run where a body left off. -/
theorem exec_close_frame (h : s.Wf) (how : s.owner = some me) (hk : Keeps s.pushed s₁) :
    exec me .close s₁ = .ok (.closed (decide (s.frameIndex = 0 ∧ s.shared = true)))
      (s₁.closedAt s.offset) := by
  simp only [exec, Method.bind_apply]
  rw [close_ok hk.wf (hk.owner.trans how) (hk.marks_eq h)]
  simp only [Method.pure_apply, hk.releases h]

/-- **A body keeps the marks under it**, and no `close` in it gives the stack up. -/
theorem Nested.keeps (w : Nested me) (h : s.Wf) (how : s.owner = some me)
    (hinner : s.frameIndex ≠ 0) :
    Keeps s (w.run s).2 ∧ ∀ o ∈ (w.run s).1, o ≠ .ok (.closed true) := by
  induction w generalizing s with
  | done => exact ⟨.refl h, by simp [run]⟩
  | allocate byteSize byteAlignment rest ih =>
    have hk := exec_allocate_keeps h me byteSize byteAlignment
    have he := exec_effect h me (.allocate byteSize byteAlignment)
    obtain ⟨hk', hout⟩ := ih hk.wf (hk.owner.trans how) (by rwa [hk.frameIndex h])
    refine ⟨hk.trans hk', fun o ho => ?_⟩
    simp only [run, List.mem_cons] at ho
    rcases ho with rfl | ho
    · generalize exec me (.allocate byteSize byteAlignment) s = r at he
      cases he <;> simp
    · exact hout o ho
  | foreign t ht c rest ih =>
    have hforeign : exec t c s = .error wrongThread s :=
      exec_foreign (by rw [how]; simpa using ht.symm) c
    obtain ⟨hk, hout⟩ := ih h how hinner
    simp only [run, hforeign, Method.fields_error]
    refine ⟨hk, fun o ho => ?_⟩
    rcases List.mem_cons.mp ho with rfl | ho
    · simp
    · exact hout o ho
  | frame heap body rest ihb ihr =>
    simp only [run]
    rcases exec_push_cases h how heap with ⟨room, hpush⟩ | ⟨-, e, hpush⟩
    · obtain ⟨hkb, houtb⟩ := ihb (h.pushed room) how (by simp)
      have hk := closedAt_keeps h hinner hkb
      obtain ⟨hkr, houtr⟩ := ihr hk.wf (hk.owner.trans how) (by rwa [hk.frameIndex h])
      simp only [hpush, exec_close_frame h how hkb, hinner, false_and, decide_false,
        Method.fields_ok]
      refine ⟨hk.trans hkr, fun o ho => ?_⟩
      simp only [List.cons_append, List.mem_cons, List.mem_append] at ho
      rcases ho with rfl | ho | rfl | ho
      · simp
      · exact houtb o ho
      · simp
      · exact houtr o ho
    · obtain ⟨hk, hout⟩ := ihr h how hinner
      simp only [hpush]
      refine ⟨hk, fun o ho => ?_⟩
      rcases List.mem_cons.mp ho with rfl | ho
      · simp
      · exact hout o ho

/-! ## Running it again -/

/-- A body run under `heap` leaves `frames` at a length that `heap` granted. -/
theorem Nested.grants {heap : Nat → Bool} (w : Nested me) (hw : w.Uses heap) (h : s.Wf)
    (how : s.owner = some me) (hinner : s.frameIndex ≠ 0) :
    s.frames.length ≤ (w.run s).2.frames.length ∧
      Grants heap s.frames.length (w.run s).2.frames.length := by
  induction w generalizing s with
  | done => exact ⟨Nat.le_refl _, .of_le (Nat.le_refl _)⟩
  | allocate byteSize byteAlignment rest ih =>
    have hk := exec_allocate_keeps h me byteSize byteAlignment
    have he := exec_effect h me (.allocate byteSize byteAlignment)
    have hframes : (Method.fields (exec me (.allocate byteSize byteAlignment) s)).frames =
        s.frames := by
      generalize exec me (.allocate byteSize byteAlignment) s = r at he
      cases he <;> rfl
    have hrest := ih hw hk.wf (hk.owner.trans how) (by rwa [hk.frameIndex h])
    rwa [hframes] at hrest
  | foreign t ht c rest ih =>
    have hforeign : exec t c s = .error wrongThread s :=
      exec_foreign (by rw [how]; simpa using ht.symm) c
    simp only [run, hforeign, Method.fields_error]
    exact ih hw h how hinner
  | frame heap' body rest ihb ihr =>
    obtain ⟨rfl, hwb, hwr⟩ := hw
    simp only [run]
    rcases exec_push_cases h how heap' with ⟨room, hpush⟩ | ⟨-, e, hpush⟩
    · obtain ⟨hkb, -⟩ := body.keeps (h.pushed room) how (by simp)
      have hk := closedAt_keeps h hinner hkb
      obtain ⟨hleb, hgb⟩ := ihb hwb (h.pushed room) how (by simp)
      obtain ⟨hler, hgr⟩ := ihr hwr hk.wf (hk.owner.trans how) (by rwa [hk.frameIndex h])
      obtain ⟨hlep, hgp⟩ := h.grants_pushed room
      simp only [hpush, exec_close_frame h how hkb, Method.fields_ok]
      exact ⟨hlep.trans (hleb.trans hler), hgp.trans (hgb.trans hgr)⟩
    · simp only [hpush]
      exact ihr hwr h how hinner

/-- Stacks alike run a body alike. -/
theorem Nested.alike {heap : Nat → Bool} (w : Nested me) (hw : w.Uses heap)
    {a b : NativeStack Thread} (h : Alike a b) (hg : Grants heap b.frames.length a.frames.length)
    (how : b.owner = some me) (hinner : b.frameIndex ≠ 0) :
    (w.run a).1 = (w.run b).1 ∧ Alike.Next a b (w.run a).2 (w.run b).2 := by
  induction w generalizing a b with
  | done => exact ⟨rfl, .refl h⟩
  | allocate byteSize byteAlignment rest ih =>
    have hk := exec_allocate_keeps h.wf_right me byteSize byteAlignment
    obtain ⟨hout, hnext⟩ := h.exec me (.allocate byteSize byteAlignment) (by simp)
    obtain ⟨hrest, hnext'⟩ := ih hw hnext.alike (hnext.grants hg) (hk.owner.trans how)
      (by rwa [hk.frameIndex h.wf_right])
    simp only [run]
    exact ⟨by rw [hout, hrest], hnext.trans hnext'⟩
  | foreign t ht c rest ih =>
    have hforeign : ∀ {s : NativeStack Thread}, s.owner = some me →
        exec t c s = .error wrongThread s :=
      fun hs => exec_foreign (by rw [hs]; simpa using ht.symm) c
    obtain ⟨hrest, hnext⟩ := ih hw h hg how hinner
    simp only [run, hforeign how, hforeign (h.owner.trans how), Method.fields_error]
    exact ⟨by rw [hrest]; rfl, hnext⟩
  | frame heap' body rest ihb ihr =>
    obtain ⟨rfl, hwb, hwr⟩ := hw
    have hinnera : a.frameIndex ≠ 0 := by rwa [h.frameIndex]
    have howa : a.owner = some me := h.owner.trans how
    simp only [run]
    rcases h.exec_push how hg with ⟨rooma, room, hpusha, hpush⟩ | ⟨e, hpusha, hpush⟩
    · have hnext := h.pushed rooma room
      obtain ⟨hkb, -⟩ := body.keeps (h.wf_right.pushed room) how (by simp)
      obtain ⟨hkba, -⟩ := body.keeps (h.wf_left.pushed rooma) howa (by simp)
      obtain ⟨houtb, hnextb⟩ := ihb hwb hnext.alike (hnext.grants hg) how (by simp)
      have hnextc := hnextb.alike.closedAt (hkb.marks_eq h.wf_right)
      have hk := closedAt_keeps h.wf_right hinner hkb
      have hnext' := (hnext.trans hnextb).trans hnextc
      obtain ⟨houtr, hnextr⟩ := ihr hwr hnext'.alike (hnext'.grants hg) (hk.owner.trans how)
        (by rwa [hk.frameIndex h.wf_right])
      simp only [hpush, hpusha, exec_close_frame h.wf_right how hkb,
        exec_close_frame h.wf_left howa hkba, Method.fields_ok, Loop.outcome_ok, h.offset,
        h.frameIndex, h.shared]
      exact ⟨by rw [houtb, houtr], hnext'.trans hnextr⟩
    · obtain ⟨hrest, hnext⟩ := ihr hwr h hg how hinner
      simp only [hpush, hpusha]
      exact ⟨by rw [hrest], hnext⟩

/-- **A closed frame leaves no trace.** In a reachable state, a `push` by the
owner either throws, for want of a longer `frames`, and changes nothing; or,
whatever well-nested sequence `w` runs then, the matching `close` returns and
the offset, `frameIndex` and the saved offsets are those from before the
`push`. No `close` in `w` gives the stack up to `cachePool`. And if the VM
keeps giving the same answers about room, running the same sequence again,
once `me` is the owner again, gives the same slices and exceptions. -/
theorem frame_leaves_no_trace (hs : s.Reachable) (how : s.owner = some me) (heap : Nat → Bool)
    (w : Nested me) :
    (¬ s.CanPush heap ∧ ∃ e, exec me (.push heap) s = .error e s) ∨
    ∃ s₁ s₃, exec me (.push heap) s = .ok .this s₁ ∧
      exec me .close (w.run s₁).2 = .ok (.closed (decide (s.frameIndex = 0 ∧ s.shared = true))) s₃ ∧
      s₃.offset = s.offset ∧ s₃.frameIndex = s.frameIndex ∧
      s₃.frames.take s₃.frameIndex = s.frames.take s.frameIndex ∧
      s₃.owner = (if s.frameIndex = 0 ∧ s.shared = true then none else some me) ∧
      (∀ o ∈ (w.run s₁).1, o ≠ .ok (.closed true)) ∧
      (w.Uses heap →
        ((Nested.frame heap w .done).run (s₃.changeOwner me)).1 =
          ((Nested.frame heap w .done).run s).1) := by
  have h := hs.wf
  rcases exec_push_cases h how heap with ⟨room, hpush⟩ | ⟨full, hpush⟩
  · obtain ⟨hk, hout⟩ := w.keeps (h.pushed room) how (by simp)
    have hclose := exec_close_frame h how hk
    have hm := hk.marks_eq h
    have hindex := hk.wf.frameIndex_eq hm
    rw [h.length_marks] at hindex
    have hwf := hk.wf.closedAt hm
    have hmarks := hk.wf.marks_closedAt hm
    refine .inr ⟨_, _, hpush, hclose, rfl, by simp [hindex], hmarks, ?_, hout, fun hw => ?_⟩
    · simp only [closedAt_owner, hk.releases h, hk.owner, pushed_owner, how]
    · -- The stack comes back alike, with a `frames` that `heap` granted.
      obtain ⟨hle, hg⟩ := w.grants hw (h.pushed room) how (by simp)
      obtain ⟨hlep, hgp⟩ := h.grants_pushed room
      have halike : Alike (((w.run s.pushed).2.closedAt s.offset).changeOwner me) s :=
        ⟨hwf.changeOwner me, h, hk.shared, how.symm, hk.segment, rfl, hmarks, hlep.trans hle⟩
      have hgrants : Grants heap s.frames.length (w.run s.pushed).2.frames.length := hgp.trans hg
      rcases halike.exec_push how hgrants with ⟨rooma, -, hpusha, -⟩ | ⟨e, -, herr⟩
      · have hnext := halike.pushed rooma room
        obtain ⟨hrun, -⟩ := w.alike hw hnext.alike (hnext.grants hgrants) how (by simp)
        obtain ⟨hka, -⟩ := w.keeps (halike.wf_left.pushed rooma) (halike.owner.trans how) (by simp)
        have hclosea := exec_close_frame halike.wf_left (halike.owner.trans how) hka
        rw [halike.frameIndex, halike.shared] at hclosea
        simp only [Nested.run, hpush, hpusha, hclose, hclosea, hrun, Loop.outcome_ok,
          Method.fields_ok]
      · rw [hpush] at herr
        cases herr
  · exact .inl ⟨full, hpush⟩

/-- In a stack just made, with a refused `close`, an inner frame and a block too large. -/
theorem frame_leaves_no_trace_new :
    let s : NativeStack Nat := new 0 ⟨0x1000, 64, by decide, by decide⟩ true
    let inner : Nested 0 := .frame (fun _ => true) (.allocate 100 1 .done) .done
    let w : Nested 0 := .allocate 8 16 (.foreign 1 (by decide) .close inner)
    (¬ s.CanPush (fun _ => true) ∧ ∃ e, exec 0 (.push fun _ => true) s = .error e s) ∨
    ∃ s₁ s₃, exec 0 (.push fun _ => true) s = .ok .this s₁ ∧
      exec 0 .close (w.run s₁).2 = .ok (.closed (decide (s.frameIndex = 0 ∧ s.shared = true))) s₃ ∧
      s₃.offset = s.offset ∧ s₃.frameIndex = s.frameIndex ∧
      s₃.frames.take s₃.frameIndex = s.frames.take s.frameIndex ∧
      s₃.owner = (if s.frameIndex = 0 ∧ s.shared = true then none else some 0) ∧
      (∀ o ∈ (w.run s₁).1, o ≠ .ok (.closed true)) ∧
      (w.Uses (fun _ => true) → ((Nested.frame (fun _ => true) w .done).run (s₃.changeOwner 0)).1 =
        ((Nested.frame (fun _ => true) w .done).run s).1) :=
  frame_leaves_no_trace ⟨0, _, true, [], rfl⟩ rfl _ _

end FfiBenchmark.NativeStack
