/-
The steps of a call, and the exceptions it can end in.

A call takes eight steps at the most: the statements a thread still has before
it (`Pc.rank`) do not grow while other threads take steps. The blocks under
`cachePoolLock` count as one step each. A thread that waits for the lock takes no
step here, so this says nothing of how long it waits.
-/
import FfiBenchmark.Pool.Atomicity

namespace FfiBenchmark.Pool

variable {Thread : Type}

/-- The most statements a thread still has before it until its call ends. -/
def Pc.rank : Pc → Nat
  | .idle => 0
  | .pushing _ | .setting _ false | .caching _ => 1
  | .registering _ _ false | .setting _ true | .disowning _ => 2
  | .missing false | .registering _ _ true | .unsetting _ => 3
  | .missing true | .returning _ _ => 4
  | .dropping _ _ => 5
  | .restoring _ _ => 6
  | .testing _ => 7

/-- The exceptions of `getStack`, `pushStack`, `push`, `allocate` and `close`. -/
inductive Expected : Exn → Prop where
  | outOfMemory : Expected .outOfMemory
  | negativeArraySize : Expected .negativeArraySize
  | wrongThread : Expected NativeStack.wrongThread
  | empty : Expected (.illegalState "Stack is empty")
  | illegalArgument {message} : Expected (.illegalArgument message)
  | indexOutOfBounds : Expected .indexOutOfBounds

variable [DecidableEq Thread]

variable {cfg : Config Thread} {s s' : State Thread} {place : Nat → Place Thread} {t : Thread}
  {act : Act} {out : Outcome} {trace : Trace Thread}

/-- A step brings the call nearer to its end, or is its first, or its last. -/
theorem rank_moves (hm : Moves cfg s t act out s') :
    (out = .running ∧ s'.running.pc t ≠ .idle ∧
        (s.running.pc t = .idle ∨ (s'.running.pc t).rank < (s.running.pc t).rank)) ∨
      out ≠ .running ∧ s'.running.pc t = .idle := by
  cases hm with
  | hit thenPush hpc hb => cases thenPush <;> simp [obtained, hpc]
  | missed thenPush hpc hb | checked hpc hx how => simp [hpc]
  | took hpc hv hpool hx | madeShared hpc hv hpool hsize | madeConfined hpc hv hsize
  | registered hpc =>
    rename_i thenPush
    cases thenPush <;> simp [hpc, Pc.rank]
  | bound hpc =>
    rename_i thenPush
    cases thenPush <;> simp [obtained, hpc, Pc.rank]
  | tested hpc hx hindex | restored hpc hx hmark | dropped hpc hx | releasing hpc hx hshared
  | unbound hpc | disowned hpc hx =>
    simp [hpc, Pc.rank]
  | called hcall hx => simp [outcome_of_ne]
  | noMemory hpc | refused hpc hx how | empty hpc hx h0 | unrestored hpc hx hmark | kept hpc hx hrel
  | cached hpc hroom | discarded hpc hroom | exited hpc => simp [hpc]

theorem Sheet.Refused.expected {byteSize byteAlignment : Long} {e : Exn}
    (h : Sheet.Refused byteSize byteAlignment e) :
    Expected e := by
  by_cases hvalid : Sheet.Valid byteSize byteAlignment
  · rw [h.1 hvalid]
    exact .indexOutOfBounds
  · obtain ⟨message, rfl⟩ := h.2 hvalid
    exact .illegalArgument

theorem Sheet.Does.expected {sheet sheet' : Sheet} {c : NativeStack.Call} {e : Exn}
    (h : sheet.Does c (.threw e) sheet') :
    Expected e := by
  cases h with
  | full hfull hheap he =>
    rw [he]
    split
    · exact .negativeArraySize
    · exact .outOfMemory
  | refused hno he => exact he.expected
  | empty hmarks => exact .empty

theorem Histories.throws (h : Histories cfg s) {e : Exn} (hm : Moves cfg s t act out s')
    (hout : out = .threw e) :
    Expected e := by
  cases hm with
  | hit thenPush hpc hb | bound hpc =>
    rename_i thenPush
    cases thenPush <;> cases hout
  | noMemory hpc hpool =>
    cases hout
    exact .outOfMemory
  | @called act r c x hcall hx =>
    by_cases how : x.owner = some t
    · have hdoes := NativeStack.does_exec (h.trail r x hx).wf how (c := c) (by cases hcall <;> simp)
      rw [hout] at hdoes
      exact hdoes.expected
    · rw [NativeStack.exec_foreign how] at hout
      cases hout
      exact .wrongThread
  | refused hpc hx how =>
    cases hout
    exact .wrongThread
  | empty hpc hx h0 =>
    cases hout
    exact .empty
  | @unrestored vm r x prevIndex hpc hx hmark =>
    have hindex := h.index t r prevIndex x hpc hx
    have hle := (h.trail r x hx).wf.index_le
    rw [List.getElem?_eq_none_iff] at hmark
    omega
  | _ => cases hout

end FfiBenchmark.Pool
