/-
`benchmark.NativeStack`, one object of it: the fields, the constructor and
the methods `push`, `close` and `allocate`.

`close` ends, for a shared stack that lost its last frame, with handing the
object to the static `threadStack` and `cachePool`; here it answers whether
it does, and `FfiBenchmark.Pool` has the statics. `Thread.currentThread()`
is a parameter of every method.

The `_cases` theorems say all that a call can do, for the states of
`Wf`; the rest of the development uses them and never unfolds a method.
-/
import FfiBenchmark.Java
import Mathlib.Data.List.TakeDrop

namespace FfiBenchmark

/-- The fields of a `NativeStack`. -/
structure NativeStack (Thread : Type) where
  shared : Bool
  owner : Option Thread
  segment : MemorySegment
  offset : Long
  frames : List Long
  frameIndex : Nat

namespace NativeStack

variable {Thread : Type}

/-- `new NativeStack(owner, segment, shared)`. -/
def new (owner : Thread) (segment : MemorySegment) (shared : Bool) : NativeStack Thread where
  shared := shared
  owner := some owner
  segment := segment
  offset := 0
  frames := List.replicate 8 0
  frameIndex := 0

def wrongThread : Exn := .wrongThread "Not on the thread of the native stack"

section Methods

variable [DecidableEq Thread]

def checkThread (t : Thread) : Method (NativeStack Thread) Unit := do
  if (← get).owner ≠ some t then
    throw wrongThread

/-- `changeOwner`; its `assert shared` is off unless the JVM runs with `-ea`. -/
def changeOwner (s : NativeStack Thread) (owner : Thread) : NativeStack Thread :=
  { s with owner := some owner }

def push (heap : Nat → Bool) (t : Thread) : Method (NativeStack Thread) Unit := do
  checkThread t
  let s ← get
  if s.frameIndex = s.frames.length then
    let frames ← MonadExcept.ofExcept (copyOf heap s.frames (int32 (s.frameIndex * 2)))
    modify ({ · with frames := frames })
  -- `frames[frameIndex++] = offset`: the index is incremented before the store is checked.
  let i := s.frameIndex
  modify ({ · with frameIndex := i + 1 })
  let s ← get
  if i < s.frames.length then
    modify ({ · with frames := s.frames.set i s.offset })
  else
    throw .arrayIndexOutOfBounds

/-! `close`, statement by statement. -/

/-- `int prevIndex = frameIndex - 1` and the test of it. -/
def prevFrame : Method (NativeStack Thread) Nat := do
  let prevIndex : Int := (← get).frameIndex - 1
  if prevIndex < 0 then
    throw (.illegalState "Stack is empty")
  return prevIndex.toNat

/-- `offset = frames[prevIndex]`. -/
def restoreOffset (prevIndex : Nat) : Method (NativeStack Thread) Unit := do
  match (← get).frames[prevIndex]? with
  | some mark => modify ({ · with offset := mark })
  | none => throw .arrayIndexOutOfBounds

/-- `frameIndex = prevIndex`. -/
def dropFrame (prevIndex : Nat) : Method (NativeStack Thread) Unit :=
  modify ({ · with frameIndex := prevIndex })

/-- `this.owner = null`. -/
def disown : Method (NativeStack Thread) Unit :=
  modify ({ · with owner := none })

/-- `close`; the answer is whether the stack is given up to `cachePool`. -/
def close (t : Thread) : Method (NativeStack Thread) Bool := do
  checkThread t
  let prevIndex ← prevFrame
  restoreOffset prevIndex
  dropFrame prevIndex
  if prevIndex = 0 ∧ (← get).shared then
    disown
    return true
  return false

def checkAllocationSizeAndAlign (byteSize byteAlignment : Long) : Except Exn Unit := do
  -- size should be >= 0
  if byteSize.toInt < 0 then
    throw (.illegalArgument ("Invalid allocation size : " ++ toString byteSize.toInt))
  -- alignment should be > 0, and power of two
  if byteAlignment.toInt ≤ 0 ∨ byteAlignment &&& (byteAlignment - 1) ≠ 0 then
    throw (.illegalArgument ("Invalid alignment constraint : " ++ toString byteAlignment.toInt))

def alignUp (n alignment : Long) : Long := (n + alignment - 1) &&& -alignment

def allocate (t : Thread) (byteSize byteAlignment : Long) :
    Method (NativeStack Thread) MemorySegment := do
  checkThread t
  MonadExcept.ofExcept (checkAllocationSizeAndAlign byteSize byteAlignment)
  let s ← get
  let address := s.segment.address
  let start := alignUp (address + s.offset) byteAlignment - address
  let slice ← MonadExcept.ofExcept (s.segment.asSlice start byteSize byteAlignment)
  modify ({ · with offset := start + byteSize })
  return slice

/-! ## Calls on a stack -/

/-- A call on a stack; a `push` comes with the room the VM has for arrays then. -/
inductive Call where
  | push (heap : Nat → Bool)
  | close
  | allocate (byteSize byteAlignment : Long)

/-- What a call returns: `push` the stack itself, `close` nothing (`released`
is whether it gave the stack up), `allocate` a slice. -/
inductive Value where
  | this
  | closed (released : Bool)
  | slice (segment : MemorySegment)
  deriving DecidableEq

def exec (t : Thread) : Call → Method (NativeStack Thread) Value
  | .push heap => do push heap t; return .this
  | .close => do return .closed (← close t)
  | .allocate byteSize byteAlignment => do return .slice (← allocate t byteSize byteAlignment)

end Methods

/-! ## What `push` and `close` do -/

/-- The saved offsets: the used part of `frames`. -/
def marks (s : NativeStack Thread) : List Long := s.frames.take s.frameIndex

/-- What every call keeps of the fields. -/
structure Wf (s : NativeStack Thread) : Prop where
  index_le : s.frameIndex ≤ s.frames.length
  frames_length : ∃ k, s.frames.length = 8 * 2 ^ k
  frames_le : s.frames.length ≤ 2 ^ 30
  offset_le : s.offset.toNat ≤ s.segment.byteSize.toNat
  marks_le : ∀ m ∈ s.marks, m.toNat ≤ s.segment.byteSize.toNat

theorem wf_new (t : Thread) (seg : MemorySegment) (shared : Bool) : (new t seg shared).Wf where
  index_le := by simp [new]
  frames_length := ⟨0, by simp [new]⟩
  frames_le := by simp [new]
  offset_le := by simp [new]
  marks_le := by simp [new, marks]

namespace Wf

variable {s : NativeStack Thread}

theorem length_marks (h : s.Wf) : s.marks.length = s.frameIndex := by
  rw [marks, List.length_take, Nat.min_eq_left h.index_le]

theorem frames_pos (h : s.Wf) : 0 < s.frames.length := by
  obtain ⟨k, hk⟩ := h.frames_length
  have := Nat.two_pow_pos k
  omega

end Wf

/-- A `push` finds room for its mark: in `frames`, or in one of twice the length. -/
abbrev CanPush (heap : Nat → Bool) (s : NativeStack Thread) : Prop :=
  s.frameIndex < s.frames.length ∨ s.frames.length < 2 ^ 30 ∧ heap (s.frames.length * 2) = true

/-- `frames` with room for one more mark. -/
def grown (s : NativeStack Thread) : List Long :=
  if s.frameIndex = s.frames.length then s.frames ++ List.replicate s.frames.length 0 else s.frames

/-- The fields after a `push` that returns. -/
def pushed (s : NativeStack Thread) : NativeStack Thread :=
  { s with frames := s.grown.set s.frameIndex s.offset, frameIndex := s.frameIndex + 1 }

/-- `close` gives the stack up: it is shared and loses its last frame. -/
abbrev Releases (s : NativeStack Thread) : Prop := s.frameIndex = 1 ∧ s.shared = true

/-- The fields after a `close` that returns to `mark`. -/
def closedAt (s : NativeStack Thread) (mark : Long) : NativeStack Thread :=
  { s with
    offset := mark
    frameIndex := s.frameIndex - 1
    owner := if s.Releases then none else s.owner }

theorem prevFrame_apply (s : NativeStack Thread) :
    prevFrame s =
      if s.frameIndex = 0 then .error (.illegalState "Stack is empty") s
      else .ok (s.frameIndex - 1) s := by
  simp only [prevFrame, Method.bind_apply, Method.get_apply]
  by_cases h0 : s.frameIndex = 0
  · have hneg : (s.frameIndex : Int) - 1 < 0 := by omega
    rw [if_pos hneg, if_pos h0]
    rfl
  · have hpos : ¬ (s.frameIndex : Int) - 1 < 0 := by omega
    have hnat : ((s.frameIndex : Int) - 1).toNat = s.frameIndex - 1 := by omega
    rw [if_neg hpos, if_neg h0, hnat]
    rfl

theorem restoreOffset_apply (i : Nat) (s : NativeStack Thread) :
    restoreOffset i s = match s.frames[i]? with
      | some mark => .ok () { s with offset := mark }
      | none => .error .arrayIndexOutOfBounds s := by
  simp only [restoreOffset, Method.bind_apply, Method.get_apply]
  cases s.frames[i]? <;> rfl

theorem dropFrame_apply (i : Nat) (s : NativeStack Thread) :
    dropFrame i s = .ok () { s with frameIndex := i } := rfl
theorem disown_apply (s : NativeStack Thread) : disown s = .ok () { s with owner := none } := rfl

variable [DecidableEq Thread] {s : NativeStack Thread} {t : Thread}

theorem checkThread_apply (s : NativeStack Thread) (t : Thread) :
    checkThread t s = if s.owner = some t then .ok () s else .error wrongThread s := by
  by_cases h : s.owner = some t <;>
    simp [checkThread, Method.bind_apply, Method.get_apply, Method.throw_apply,
      Method.pure_apply, h]

/-- A caller that is not the owner gets `WrongThreadException` and changes nothing. -/
theorem exec_foreign (h : s.owner ≠ some t) (c : Call) : exec t c s = .error wrongThread s := by
  cases c <;> simp [exec, push, close, allocate, Method.bind_apply, checkThread_apply, h]

theorem push_ok (hs : s.Wf) (how : s.owner = some t) {heap : Nat → Bool} (hp : s.CanPush heap) :
    push heap t s = .ok () s.pushed := by
  have hpos := hs.frames_pos
  have hle := hs.index_le
  simp only [push, Method.bind_apply, checkThread_apply, how, if_true, Method.get_apply]
  by_cases hfull : s.frameIndex = s.frames.length
  · obtain hlt | ⟨hlt, hheap⟩ := hp
    · omega
    · rw [if_pos hfull, hfull, copyOf_double heap (by omega), if_neg (by omega), if_pos hheap]
      simp [Method.bind_apply, Method.ofExcept_ok, Method.modify_apply, Method.get_apply, pushed,
        grown, hfull, hpos]
  · have hlt : s.frameIndex < s.frames.length := by omega
    simp [Method.bind_apply, Method.modify_apply, Method.get_apply, pushed, grown, hfull, hlt]

theorem push_full (hs : s.Wf) (how : s.owner = some t) {heap : Nat → Bool} (hp : ¬ s.CanPush heap) :
    push heap t s =
      .error (if 2 ^ 30 ≤ s.frames.length then .negativeArraySize else .outOfMemory) s := by
  have hle := hs.index_le
  have hlen := hs.frames_le
  simp only [CanPush, not_or, not_and, Nat.not_lt] at hp
  have hfull : s.frameIndex = s.frames.length := by omega
  simp only [push, Method.bind_apply, checkThread_apply, how, if_true, Method.get_apply]
  rw [if_pos hfull, hfull, copyOf_double heap (by omega)]
  by_cases hbig : 2 ^ 30 ≤ s.frames.length
  · rw [if_pos hbig, if_pos hbig, Method.bind_apply, Method.ofExcept_error]
  · have hheap : heap (s.frames.length * 2) ≠ true := hp.2 (by omega)
    rw [if_neg hbig, if_neg hbig, if_neg hheap, Method.bind_apply, Method.ofExcept_error]

theorem close_ok (hs : s.Wf) (how : s.owner = some t) {ms : List Long} {mark : Long}
    (hm : s.marks = ms ++ [mark]) : close t s = .ok (decide s.Releases) (s.closedAt mark) := by
  have hlen : s.frameIndex = ms.length + 1 := by rw [← hs.length_marks, hm]; simp
  have hmark : s.frames[ms.length]? = some mark := by
    have := congrArg (·[ms.length]?) hm
    simpa [marks, List.getElem?_take, hlen] using this
  have hprev : s.frameIndex - 1 = ms.length := by omega
  simp only [close, Method.bind_apply, checkThread_apply, how, if_true, prevFrame_apply, hprev,
    if_neg (show s.frameIndex ≠ 0 by omega), restoreOffset_apply, hmark, dropFrame_apply,
    Method.get_apply]
  by_cases hr : ms.length = 0 ∧ s.shared = true
  · have hrel : s.Releases := ⟨by omega, hr.2⟩
    simp only [if_pos hr, Method.bind_apply, disown_apply, Method.pure_apply]
    rw [decide_eq_true hrel, closedAt, if_pos hrel, hlen]
    rfl
  · have hrel : ¬ s.Releases := fun h => hr ⟨by have := h.1; omega, h.2⟩
    simp only [if_neg hr, Method.pure_apply]
    rw [decide_eq_false hrel, closedAt, if_neg hrel, hlen, how]
    rfl

theorem close_empty (how : s.owner = some t) (h0 : s.frameIndex = 0) :
    close t s = .error (.illegalState "Stack is empty") s := by
  simp only [close, Method.bind_apply, checkThread_apply, how, if_true, prevFrame_apply, h0]

end NativeStack

end FfiBenchmark
