/-
A stack that was used before, and a new one over the same segment.

They give the same results, call by call, just when no offset is left of what
was allocated before (`likeNew_iff`). The array of saved offsets may be longer
than a new one, which makes no difference (`Alike`). `base` is the offset that
is left when every frame is closed.
-/
import FfiBenchmark.NativeStack.Alike

namespace FfiBenchmark.NativeStack

variable {Thread : Type} {s : NativeStack Thread} {ms : List Long} {mark : Long}

/-- The offset outside of every frame: where the outermost frame begins, or
would begin. -/
def base (s : NativeStack Thread) : Long := s.marks.headD s.offset

theorem base_of_frameIndex (h : s.frameIndex = 0) : s.base = s.offset := by
  rw [base, marks, h]
  rfl

theorem base_of_marks (hm : s.marks = ms ++ [mark]) : s.base = ms.headD mark := by
  rw [base, hm]
  cases ms <;> rfl

theorem Wf.base_pushed (h : s.Wf) : s.pushed.base = s.base := by
  rw [base_of_marks h.marks_pushed]
  rfl

/-- The whole segment can be had as one block just when nothing is taken from it. -/
theorem firstFit_whole : (∃ m, s.FirstFit s.segment.byteSize 1 m) ↔ s.offset = 0 := by
  constructor
  · intro hex
    obtain ⟨m, hfit⟩ := hex
    have hge := hfit.least.1.2
    have hfits := hfit.fits
    have hzero : s.offset.toNat = 0 := by omega
    exact BitVec.eq_of_toNat_eq hzero
  · intro h0
    refine ⟨s.segment.address.toNat, s.segment.byteSize_nonneg, ⟨0, rfl⟩,
      ⟨⟨one_dvd _, ?_⟩, fun _ hm => ?_⟩, by omega⟩
    · simp [h0]
    · exact Nat.le_of_add_right_le hm.2

variable [DecidableEq Thread]

/-- In the hands of a new owner, the stack gives the same results as a new one
over the same segment, call by call, whatever the calls. (A new one may need
arrays that this one has, so the VM has to grant those.) -/
def LikeNew (s : NativeStack Thread) : Prop :=
  ∀ t calls, (∀ t' heap, (t', .push heap) ∈ calls → Grants heap 8 s.frames.length) →
    ((s.changeOwner t).results calls).1 = ((new t s.segment true).results calls).1

theorem likeNew_iff (h : s.Wf) (hshared : s.shared = true) (h0 : s.frameIndex = 0) (t : Thread) :
    s.LikeNew ↔ s.offset = 0 := by
  constructor
  · intro hlike
    have hnew : ∃ m, (new t s.segment true).FirstFit (new t s.segment true).segment.byteSize 1 m :=
      firstFit_whole.mpr rfl
    have hsame := hlike t [(t, .allocate s.segment.byteSize 1)] (by simp)
    simp only [results, exec, Method.bind_apply, List.cons.injEq, and_true] at hsame
    rcases allocate_cases (s := new t s.segment true) (t := t) rfl (by simp [new])
      s.segment.byteSize 1 with
      ⟨e, hno, -⟩ | ⟨m, slice, offset, -, -, -, hok⟩
    · obtain ⟨m, hm⟩ := hnew
      exact absurd hm (hno m)
    · rcases allocate_cases (s := s.changeOwner t) (t := t) rfl h.offset_le
          s.segment.byteSize 1 with
        ⟨e, -, herr⟩ | ⟨m', slice', offset', hfit, -⟩
      · rw [hok, herr] at hsame
        cases hsame
      · have hoffset : (s.changeOwner t).offset = 0 := firstFit_whole.mp ⟨m', hfit⟩
        exact hoffset
  · intro hoffset t' calls hg
    have hlen : 8 ≤ s.frames.length := by
      obtain ⟨k, hk⟩ := h.frames_length
      have := Nat.two_pow_pos k
      omega
    have halike : Alike (s.changeOwner t') (new t' s.segment true) :=
      ⟨h.changeOwner t', wf_new t' s.segment true, hshared, rfl, rfl, hoffset,
        by simp [changeOwner, marks, h0, new], hlen⟩
    exact (halike.results calls hg).1

end FfiBenchmark.NativeStack
