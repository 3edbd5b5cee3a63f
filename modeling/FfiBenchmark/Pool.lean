/-
The static part of `benchmark.NativeStack`: `threadStack`, `cachePool`,
`sharedArena` and `CLEANER`, and the threads that run on them.

A state holds every `NativeStack` made so far; a reference is a position in
that list. `push` and `allocate` are one step of their thread, as they touch
nothing static. `getStack` and `close` go statement by statement, the block
under `cachePoolLock` as one, and between two statements any other thread may
take steps. `Pc` is the statement a thread is at.

The VM decides whether there is memory for a segment and for a longer `frames`.
The small objects of a new stack are taken to find room: the `NativeStack` with
its first `frames`, the arena, what `CLEANER.register` and `threadStack.set` add.

`Moves` says all that a step can do; the rest of the development uses it and
never unfolds `step`.
-/
import FfiBenchmark.Lib.Table
import FfiBenchmark.NativeStack.Calls
import Mathlib.Data.List.AList

namespace FfiBenchmark.Pool

open NativeStack (Call Value checkThread prevFrame restoreOffset dropFrame disown prevFrame_apply
  restoreOffset_apply)

/-- The constants of the class, and what the platform says of its threads.
`new ArrayList<>(CACHE_LIMIT)` throws for a negative limit. -/
structure Config (Thread : Type) where
  stackSize : Long
  stackSize_nonneg : 0 ≤ stackSize.toInt
  cacheLimit : Nat
  isVirtual : Thread → Bool
  cleaner : Thread

/-- The statement a thread is at, and the values of the local variables it
still needs; `idle` outside of every method. `thenPush` tells `pushStack` from
`getStack`. -/
inductive Pc where
  | idle
  /-- `threadStack.get()` was null. -/
  | missing (thenPush : Bool)
  /-- at `CLEANER.register(stack, arena::close)` -/
  | registering (stack arena : Nat) (thenPush : Bool)
  /-- at `threadStack.set(stack)` -/
  | setting (stack : Nat) (thenPush : Bool)
  /-- at `getStack().push()`, with the stack in hand -/
  | pushing (stack : Nat)
  /-- at `int prevIndex = frameIndex - 1` -/
  | testing (stack : Nat)
  /-- at `offset = frames[prevIndex]` -/
  | restoring (stack prevIndex : Nat)
  /-- at `frameIndex = prevIndex` -/
  | dropping (stack prevIndex : Nat)
  /-- at `if (prevIndex == 0 && shared)` -/
  | returning (stack prevIndex : Nat)
  /-- at `threadStack.set(null)` -/
  | unsetting (stack : Nat)
  /-- at `this.owner = null` -/
  | disowning (stack : Nat)
  /-- at the block under `cachePoolLock` -/
  | caching (stack : Nat)
  deriving DecidableEq

/-- The stack a running method has in hand. -/
def Pc.stack : Pc → Option Nat
  | .idle | .missing _ => none
  | .registering r _ _ | .setting r _ | .pushing r | .testing r | .restoring r _ | .dropping r _
  | .returning r _ | .unsetting r | .disowning r | .caching r => some r

/-- The threads inside a method, with the statement each is at. -/
abbrev Running (Thread : Type) := AList fun _ : Thread => Pc

/-- An `Arena.ofConfined()` with the segment allocated from it. -/
structure Arena (Thread : Type) where
  creator : Thread
  segment : MemorySegment
  closed : Bool

/-- `CLEANER.register(stack, arena::close)`, and whether the action has run. -/
structure Cleanable where
  stack : Nat
  arena : Nat
  ran : Bool
  deriving DecidableEq

structure State (Thread : Type) where
  objects : List (NativeStack Thread)
  threadStack : AList fun _ : Thread => Nat
  cachePool : List Nat
  sharedArena : List MemorySegment
  arenas : List (Arena Thread)
  cleanables : List Cleanable
  running : Running Thread
  exited : List Thread

/-- The state after the static initializer. -/
def State.init (Thread : Type) : State Thread where
  objects := []
  threadStack := ∅
  cachePool := []
  sharedArena := []
  arenas := []
  cleanables := []
  running := ∅
  exited := []

/-- What the VM gives to a statement that asks for memory: whether it has room
for an array of that many elements, and the segment an arena allocates. -/
structure Vm where
  heap : Nat → Bool
  memory : Option MemorySegment

/-- What a thread does next: outside of methods, a call or its end; inside, the
next statement. -/
inductive Act where
  | getStack
  | pushStack
  | push (stack : Nat) (heap : Nat → Bool)
  | allocate (stack : Nat) (byteSize byteAlignment : Long)
  | close (stack : Nat)
  | exit
  | next (vm : Vm)

inductive Label (Thread : Type) where
  | thread (t : Thread) (act : Act)
  /-- the Cleaner runs an action -/
  | clean (cleanable : Nat)

inductive Outcome where
  | running
  | stack (stack : Nat)
  | returned (v : Value)
  | threw (e : Exn)
  | exited
  | cleaned
  deriving DecidableEq

/-- How a call that ended in `r` ends. -/
def Outcome.of : Except Exn Value → Outcome
  | .ok v => .returned v
  | .error e => .threw e

/-- The call of `getStack`, or of `pushStack`. -/
def ask : Bool → Act
  | false => .getStack
  | true => .pushStack

/-- `getStack` is done; `pushStack` goes on. -/
def obtained (stack : Nat) (thenPush : Bool) : Outcome × Pc :=
  if thenPush then (.running, .pushing stack) else (.stack stack, .idle)

variable {Thread : Type} [DecidableEq Thread]

namespace Running

def pc (m : Running Thread) (t : Thread) : Pc := (m.lookup t).getD .idle

def assign (m : Running Thread) (t : Thread) (pc : Pc) : Running Thread :=
  if pc = .idle then m.erase t else m.insert t pc

theorem pc_assign (m : Running Thread) (t t' : Thread) (pc : Pc) :
    (m.assign t pc).pc t' = if t' = t then pc else m.pc t' := by
  unfold Running.pc assign
  split
  · next hidle =>
    split
    · next ht => rw [ht, AList.lookup_erase, hidle]; rfl
    · next ht => rw [AList.lookup_erase_ne ht]
  · split
    · next ht => rw [ht, AList.lookup_insert]; rfl
    · next ht => rw [AList.lookup_insert_ne ht]

@[simp] theorem pc_assign_self (m : Running Thread) (t : Thread) (pc : Pc) :
    (m.assign t pc).pc t = pc := by
  rw [pc_assign, if_pos rfl]

theorem pc_assign_ne (m : Running Thread) {t t' : Thread} (h : t' ≠ t) (pc : Pc) :
    (m.assign t pc).pc t' = m.pc t' := by
  rw [pc_assign, if_neg h]

end Running

namespace State

/-- Something the collector starts from refers to the stack: a live thread's
`threadStack`, `cachePool`, or a method that has it in hand. -/
abbrev Reachable (s : State Thread) (r : Nat) : Prop :=
  (∃ e ∈ s.threadStack.entries, e.2 = r) ∨ r ∈ s.cachePool ∨
    ∃ e ∈ s.running.entries, e.2.stack = some r

/-- The Cleaner has run the stack's action: no reference to the stack is left. -/
def collected (s : State Thread) (r : Nat) : Bool := s.cleanables.any fun c => c.stack = r ∧ c.ran

/-- `t` runs a part of a method on the stack `r`; if it throws, the call ends. -/
def onStack {α : Type} (s : State Thread) (t : Thread) (r : Nat) (m : Method (NativeStack Thread) α)
    (next : α → Outcome × Pc) : Option (Outcome × State Thread) :=
  (s.objects[r]?).map fun x =>
    let (out, pc) := match Loop.outcome (m x) with
      | .ok a => next a
      | .error e => (.threw e, .idle)
    (out, { s with
      objects := s.objects.set r (Method.fields (m x))
      running := s.running.assign t pc })

/-- `getStack` up to `threadStack.get()`. -/
def getStack (s : State Thread) (t : Thread) (thenPush : Bool) : Outcome × State Thread :=
  match s.threadStack.lookup t with
  | some r =>
    let (out, pc) := obtained r thenPush
    (out, { s with running := s.running.assign t pc })
  | none => (.running, { s with running := s.running.assign t (.missing thenPush) })

/-- `getStack` from `if (thread.isVirtual())` to the end of that statement, but
for `CLEANER.register`. Where there is a segment, there is room for the object. -/
def obtain (cfg : Config Thread) (s : State Thread) (t : Thread) (vm : Vm) (thenPush : Bool) :
    Option (Outcome × State Thread) :=
  match cfg.isVirtual t, s.cachePool.getLast? with
  | true, some r =>
    (s.objects[r]?).map fun x => (.running, { s with
      objects := s.objects.set r (x.changeOwner t)
      cachePool := s.cachePool.dropLast
      running := s.running.assign t (.setting r thenPush) })
  | virtual, _ =>
    match vm.memory with
    | none => some (.threw .outOfMemory, { s with running := s.running.assign t .idle })
    | some segment =>
      if segment.byteSize ≠ cfg.stackSize then none
      else if virtual then
        some (.running, { s with
          objects := s.objects ++ [.new t segment true]
          sharedArena := s.sharedArena ++ [segment]
          running := s.running.assign t (.setting s.objects.length thenPush) })
      else
        some (.running, { s with
          objects := s.objects ++ [.new t segment false]
          arenas := s.arenas ++ [⟨t, segment, false⟩]
          running := s.running.assign t (.registering s.objects.length s.arenas.length thenPush) })

/-- A thread outside of methods. -/
def call (s : State Thread) (t : Thread) : Act → Option (Outcome × State Thread)
  | .getStack => some (s.getStack t false)
  | .pushStack => some (s.getStack t true)
  | .push r heap =>
    if s.collected r then none
    else s.onStack t r (NativeStack.exec t (.push heap)) fun v => (.returned v, .idle)
  | .allocate r byteSize byteAlignment =>
    if s.collected r then none
    else s.onStack t r (NativeStack.exec t (.allocate byteSize byteAlignment))
      fun v => (.returned v, .idle)
  | .close r =>
    if s.collected r then none else s.onStack t r (checkThread t) fun _ => (.running, .testing r)
  | .exit =>
    some (.exited, { s with threadStack := s.threadStack.erase t, exited := t :: s.exited })
  | .next _ => none

/-- A thread inside a method. -/
def resume (cfg : Config Thread) (s : State Thread) (t : Thread) (vm : Vm) :
    Pc → Option (Outcome × State Thread)
  | .idle => none
  | .missing thenPush => s.obtain cfg t vm thenPush
  | .registering r a thenPush => some (.running, { s with
      cleanables := s.cleanables ++ [⟨r, a, false⟩]
      running := s.running.assign t (.setting r thenPush) })
  | .setting r thenPush =>
    let (out, pc) := obtained r thenPush
    some (out, { s with threadStack := s.threadStack.insert t r, running := s.running.assign t pc })
  | .pushing r => s.onStack t r (NativeStack.exec t (.push vm.heap)) fun v => (.returned v, .idle)
  | .testing r => s.onStack t r prevFrame fun prevIndex => (.running, .restoring r prevIndex)
  | .restoring r prevIndex =>
    s.onStack t r (restoreOffset prevIndex) fun _ => (.running, .dropping r prevIndex)
  | .dropping r prevIndex =>
    s.onStack t r (dropFrame prevIndex) fun _ => (.running, .returning r prevIndex)
  | .returning r prevIndex => s.onStack t r get fun x =>
      if prevIndex = 0 ∧ x.shared then (.running, .unsetting r)
      else (.returned (.closed false), .idle)
  | .unsetting r => some (.running, { s with
      threadStack := s.threadStack.erase t
      running := s.running.assign t (.disowning r) })
  | .disowning r => s.onStack t r disown fun _ => (.running, .caching r)
  | .caching r => some (.returned (.closed true), { s with
      cachePool := if s.cachePool.length < cfg.cacheLimit then s.cachePool ++ [r] else s.cachePool
      running := s.running.assign t .idle })

/-- `arena::close` on the Cleaner's thread, which drops what it throws. -/
def clean (cfg : Config Thread) (s : State Thread) (i : Nat) : Option (Outcome × State Thread) :=
  match s.cleanables[i]? with
  | none => none
  | some c =>
    if c.ran ∨ s.Reachable c.stack then none
    else some (.cleaned, { s with
      cleanables := s.cleanables.set i { c with ran := true }
      arenas := s.arenas.modify c.arena
        fun a => if a.creator = cfg.cleaner then { a with closed := true } else a })

def step (cfg : Config Thread) (s : State Thread) : Label Thread → Option (Outcome × State Thread)
  | .thread t act =>
    if t ∈ s.exited ∨ t = cfg.cleaner then none
    else match s.running.pc t, act with
      | .idle, act => s.call t act
      | pc, .next vm => s.resume cfg t vm pc
      | _, _ => none
  | .clean i => s.clean cfg i

end State

/-! ## What a step can do -/

/-- With `act`, `t` makes the call `c` on the stack `r`. -/
inductive State.Calls (s : State Thread) (t : Thread) : Act → Nat → Call → Prop where
  | push {r heap} (hpc : s.running.pc t = .idle) : Calls s t (.push r heap) r (.push heap)
  | allocate {r byteSize byteAlignment} (hpc : s.running.pc t = .idle) :
      Calls s t (.allocate r byteSize byteAlignment) r (.allocate byteSize byteAlignment)
  | pushStack {r vm} (hpc : s.running.pc t = .pushing r) : Calls s t (.next vm) r (.push vm.heap)

/-- Everything a thread `t` can do in `s` with `act`. -/
inductive Moves (cfg : Config Thread) (s : State Thread) (t : Thread) :
    Act → Outcome → State Thread → Prop where
  /-- `getStack` finds the thread's stack, -/
  | hit {r} (thenPush : Bool) (hpc : s.running.pc t = .idle)
      (hb : s.threadStack.lookup t = some r) :
      Moves cfg s t (ask thenPush) (obtained r thenPush).1 { s with
        running := s.running.assign t (obtained r thenPush).2 }
  /-- or null. -/
  | missed (thenPush : Bool) (hpc : s.running.pc t = .idle) (hb : s.threadStack.lookup t = none) :
      Moves cfg s t (ask thenPush) .running { s with
        running := s.running.assign t (.missing thenPush) }
  | took {vm r x pool} {thenPush : Bool} (hpc : s.running.pc t = .missing thenPush)
      (hv : cfg.isVirtual t = true)
      (hpool : s.cachePool = pool ++ [r]) (hx : s.objects[r]? = some x) :
      Moves cfg s t (.next vm) .running { s with
        objects := s.objects.set r (x.changeOwner t)
        cachePool := pool
        running := s.running.assign t (.setting r thenPush) }
  | noMemory {vm} {thenPush : Bool} (hpc : s.running.pc t = .missing thenPush)
      (hpool : cfg.isVirtual t = true → s.cachePool = []) :
      Moves cfg s t (.next vm) (.threw .outOfMemory) { s with running := s.running.assign t .idle }
  | madeShared {vm segment} {thenPush : Bool} (hpc : s.running.pc t = .missing thenPush)
      (hv : cfg.isVirtual t = true)
      (hpool : s.cachePool = []) (hsize : segment.byteSize = cfg.stackSize) :
      Moves cfg s t (.next vm) .running { s with
        objects := s.objects ++ [.new t segment true]
        sharedArena := s.sharedArena ++ [segment]
        running := s.running.assign t (.setting s.objects.length thenPush) }
  | madeConfined {vm segment} {thenPush : Bool} (hpc : s.running.pc t = .missing thenPush)
      (hv : cfg.isVirtual t = false) (hsize : segment.byteSize = cfg.stackSize) :
      Moves cfg s t (.next vm) .running { s with
        objects := s.objects ++ [.new t segment false]
        arenas := s.arenas ++ [⟨t, segment, false⟩]
        running := s.running.assign t (.registering s.objects.length s.arenas.length thenPush) }
  | registered {vm r a} {thenPush : Bool} (hpc : s.running.pc t = .registering r a thenPush) :
      Moves cfg s t (.next vm) .running { s with
        cleanables := s.cleanables ++ [⟨r, a, false⟩]
        running := s.running.assign t (.setting r thenPush) }
  | bound {vm r} {thenPush : Bool} (hpc : s.running.pc t = .setting r thenPush) :
      Moves cfg s t (.next vm) (obtained r thenPush).1 { s with
        threadStack := s.threadStack.insert t r
        running := s.running.assign t (obtained r thenPush).2 }
  | called {act r c x} (hcall : s.Calls t act r c) (hx : s.objects[r]? = some x) :
      Moves cfg s t act (.of (Loop.outcome (NativeStack.exec t c x))) { s with
        objects := s.objects.set r (Method.fields (NativeStack.exec t c x))
        running := s.running.assign t .idle }
  /-- `close`, past `checkThread`. -/
  | checked {r x} (hpc : s.running.pc t = .idle) (hx : s.objects[r]? = some x)
      (how : x.owner = some t) :
      Moves cfg s t (.close r) .running { s with running := s.running.assign t (.testing r) }
  | refused {r x} (hpc : s.running.pc t = .idle) (hx : s.objects[r]? = some x)
      (how : x.owner ≠ some t) :
      Moves cfg s t (.close r) (.threw NativeStack.wrongThread) { s with
        running := s.running.assign t .idle }
  | tested {vm r x prevIndex} (hpc : s.running.pc t = .testing r) (hx : s.objects[r]? = some x)
      (hindex : x.frameIndex = prevIndex + 1) :
      Moves cfg s t (.next vm) .running { s with
        running := s.running.assign t (.restoring r prevIndex) }
  | empty {vm r x} (hpc : s.running.pc t = .testing r) (hx : s.objects[r]? = some x)
      (h0 : x.frameIndex = 0) :
      Moves cfg s t (.next vm) (.threw (.illegalState "Stack is empty")) { s with
        running := s.running.assign t .idle }
  | restored {vm r x prevIndex mark} (hpc : s.running.pc t = .restoring r prevIndex)
      (hx : s.objects[r]? = some x)
      (hmark : x.frames[prevIndex]? = some mark) :
      Moves cfg s t (.next vm) .running { s with
        objects := s.objects.set r { x with offset := mark }
        running := s.running.assign t (.dropping r prevIndex) }
  | unrestored {vm r x prevIndex} (hpc : s.running.pc t = .restoring r prevIndex)
      (hx : s.objects[r]? = some x)
      (hmark : x.frames[prevIndex]? = none) :
      Moves cfg s t (.next vm) (.threw .arrayIndexOutOfBounds) { s with
        running := s.running.assign t .idle }
  | dropped {vm r x prevIndex} (hpc : s.running.pc t = .dropping r prevIndex)
      (hx : s.objects[r]? = some x) :
      Moves cfg s t (.next vm) .running { s with
        objects := s.objects.set r { x with frameIndex := prevIndex }
        running := s.running.assign t (.returning r prevIndex) }
  | kept {vm r x prevIndex} (hpc : s.running.pc t = .returning r prevIndex)
      (hx : s.objects[r]? = some x)
      (hrel : ¬ (prevIndex = 0 ∧ x.shared = true)) :
      Moves cfg s t (.next vm) (.returned (.closed false)) { s with
        running := s.running.assign t .idle }
  | releasing {vm r x} (hpc : s.running.pc t = .returning r 0) (hx : s.objects[r]? = some x)
      (hshared : x.shared = true) :
      Moves cfg s t (.next vm) .running { s with running := s.running.assign t (.unsetting r) }
  | unbound {vm r} (hpc : s.running.pc t = .unsetting r) :
      Moves cfg s t (.next vm) .running { s with
        threadStack := s.threadStack.erase t
        running := s.running.assign t (.disowning r) }
  | disowned {vm r x} (hpc : s.running.pc t = .disowning r) (hx : s.objects[r]? = some x) :
      Moves cfg s t (.next vm) .running { s with
        objects := s.objects.set r { x with owner := none }
        running := s.running.assign t (.caching r) }
  | cached {vm r} (hpc : s.running.pc t = .caching r)
      (hroom : s.cachePool.length < cfg.cacheLimit) :
      Moves cfg s t (.next vm) (.returned (.closed true)) { s with
        cachePool := s.cachePool ++ [r]
        running := s.running.assign t .idle }
  /-- `cachePool` is full. -/
  | discarded {vm r} (hpc : s.running.pc t = .caching r)
      (hroom : cfg.cacheLimit ≤ s.cachePool.length) :
      Moves cfg s t (.next vm) (.returned (.closed true)) { s with
        running := s.running.assign t .idle }
  | exited (hpc : s.running.pc t = .idle) :
      Moves cfg s t .exit .exited { s with
        threadStack := s.threadStack.erase t
        exited := t :: s.exited }

section Cases

variable {cfg : Config Thread} {s s' : State Thread} {t : Thread} {out : Outcome}

theorem onStack_cases {α : Type} {r : Nat} {m : Method (NativeStack Thread) α}
    {next : α → Outcome × Pc} (h : s.onStack t r m next = some (out, s')) :
    ∃ x, s.objects[r]? = some x ∧
      ((∃ a x', m x = .ok a x' ∧ out = (next a).1 ∧
          s' = { s with objects := s.objects.set r x', running := s.running.assign t (next a).2 }) ∨
        ∃ e x', m x = .error e x' ∧ out = .threw e ∧
          s' = { s with objects := s.objects.set r x', running := s.running.assign t .idle }) := by
  simp only [State.onStack, Option.map_eq_some_iff] at h
  obtain ⟨x, hx, h⟩ := h
  refine ⟨x, hx, ?_⟩
  cases hm : m x with
  | ok a x' =>
    simp only [hm, Loop.outcome_ok, Method.fields_ok, Prod.mk.injEq] at h
    exact .inl ⟨a, x', rfl, h.1.symm, h.2.symm⟩
  | error e x' =>
    simp only [hm, Loop.outcome_error, Method.fields_error, Prod.mk.injEq] at h
    exact .inr ⟨e, x', rfl, h.1.symm, h.2.symm⟩

theorem called_of_onStack {act : Act} {r : Nat} {c : Call} (hcall : s.Calls t act r c)
    (h : s.onStack t r (NativeStack.exec t c) (fun v => (.returned v, .idle)) = some (out, s')) :
    Moves cfg s t act out s' := by
  obtain ⟨x, hx, h⟩ := onStack_cases h
  have hcalled : Moves cfg s t act _ _ := .called hcall hx
  obtain ⟨v, x', hm, rfl, rfl⟩ | ⟨e, x', hm, rfl, rfl⟩ := h
  · rwa [hm] at hcalled
  · rwa [hm] at hcalled

theorem getStack_cases {thenPush : Bool} (hpc : s.running.pc t = .idle)
    (h : s.getStack t thenPush = (out, s')) : Moves cfg s t (ask thenPush) out s' := by
  unfold State.getStack at h
  split at h
  · next r hb =>
    cases h
    exact .hit thenPush hpc hb
  · next hb =>
    cases h
    exact .missed thenPush hpc hb

theorem call_cases {act : Act} (hpc : s.running.pc t = .idle) (h : s.call t act = some (out, s')) :
    Moves cfg s t act out s' := by
  cases act with
  | getStack => exact getStack_cases hpc (Option.some.inj h)
  | pushStack => exact getStack_cases hpc (Option.some.inj h)
  | push r heap =>
    simp only [State.call] at h
    split at h
    · cases h
    · exact called_of_onStack (.push hpc) h
  | allocate r byteSize byteAlignment =>
    simp only [State.call] at h
    split at h
    · cases h
    · exact called_of_onStack (.allocate hpc) h
  | close r =>
    simp only [State.call] at h
    split at h
    · cases h
    · obtain ⟨x, hx, h⟩ := onStack_cases h
      simp only [NativeStack.checkThread_apply] at h
      by_cases how : x.owner = some t
      · simp only [how, if_true, EStateM.Result.ok.injEq, reduceCtorEq, false_and, exists_false,
          or_false] at h
        obtain ⟨a, _, ⟨-, rfl⟩, rfl, rfl⟩ := h
        rw [Table.set_same hx]
        exact .checked hpc hx how
      · simp only [how, if_false, EStateM.Result.error.injEq, reduceCtorEq, false_and, exists_false,
          false_or] at h
        obtain ⟨e, _, ⟨rfl, rfl⟩, rfl, rfl⟩ := h
        rw [Table.set_same hx]
        exact .refused hpc hx how
  | exit =>
    cases h
    exact .exited hpc
  | next vm => cases h

theorem obtain_cases {vm : Vm} {thenPush : Bool} (hpc : s.running.pc t = .missing thenPush)
    (h : s.obtain cfg t vm thenPush = some (out, s')) : Moves cfg s t (.next vm) out s' := by
  unfold State.obtain at h
  split at h
  · next r hv hlast =>
    simp only [Option.map_eq_some_iff, Prod.mk.injEq] at h
    obtain ⟨x, hx, rfl, rfl⟩ := h
    exact .took hpc hv (List.dropLast_append_getLast? r hlast).symm hx
  · next hpool =>
    have hempty : cfg.isVirtual t = true → s.cachePool = [] := by
      intro hv
      rw [← List.getLast?_eq_none_iff]
      exact Option.eq_none_iff_forall_ne_some.mpr fun r hr => hpool r hv hr
    split at h
    · cases h
      exact .noMemory hpc hempty
    · next segment hmemory =>
      split at h
      · cases h
      · next hsize =>
        have hsize : segment.byteSize = cfg.stackSize := Decidable.not_not.mp hsize
        split at h
        · next hv =>
          cases h
          exact .madeShared hpc hv (hempty hv) hsize
        · next hv =>
          cases h
          exact .madeConfined hpc (by simpa using hv) hsize

theorem resume_cases {vm : Vm} (h : s.resume cfg t vm (s.running.pc t) = some (out, s')) :
    Moves cfg s t (.next vm) out s' := by
  cases hpc : s.running.pc t with
  | idle => rw [hpc] at h; cases h
  | missing thenPush => rw [hpc] at h; exact obtain_cases hpc h
  | registering r a thenPush => rw [hpc] at h; cases h; exact .registered hpc
  | setting r thenPush => rw [hpc] at h; cases h; exact .bound hpc
  | pushing r => rw [hpc] at h; exact called_of_onStack (.pushStack hpc) h
  | testing r =>
    rw [hpc] at h
    obtain ⟨x, hx, h⟩ := onStack_cases h
    rw [prevFrame_apply] at h
    by_cases h0 : x.frameIndex = 0
    · rw [if_pos h0] at h
      obtain ⟨_, _, ⟨⟩, -⟩ | ⟨_, _, ⟨⟩, rfl, rfl⟩ := h
      rw [Table.set_same hx]
      exact .empty hpc hx h0
    · rw [if_neg h0] at h
      obtain ⟨_, _, ⟨⟩, rfl, rfl⟩ | ⟨_, _, ⟨⟩, -⟩ := h
      rw [Table.set_same hx]
      exact .tested hpc hx (by omega)
  | restoring r prevIndex =>
    rw [hpc] at h
    obtain ⟨x, hx, h⟩ := onStack_cases h
    rw [restoreOffset_apply] at h
    cases hmark : x.frames[prevIndex]? with
    | none =>
      rw [hmark] at h
      obtain ⟨_, _, ⟨⟩, -⟩ | ⟨_, _, ⟨⟩, rfl, rfl⟩ := h
      rw [Table.set_same hx]
      exact .unrestored hpc hx hmark
    | some mark =>
      rw [hmark] at h
      obtain ⟨_, _, ⟨⟩, rfl, rfl⟩ | ⟨_, _, ⟨⟩, -⟩ := h
      exact .restored hpc hx hmark
  | dropping r prevIndex =>
    rw [hpc] at h
    simp only [State.resume] at h
    obtain ⟨x, hx, ⟨_, _, ⟨⟩, rfl, rfl⟩ | ⟨_, _, ⟨⟩, -⟩⟩ := onStack_cases h
    exact .dropped hpc hx
  | returning r prevIndex =>
    rw [hpc] at h
    simp only [State.resume] at h
    obtain ⟨x, hx, ⟨_, _, ⟨⟩, hout, hs'⟩ | ⟨_, _, ⟨⟩, -⟩⟩ := onStack_cases h
    rw [Table.set_same hx] at hs'
    by_cases hrel : prevIndex = 0 ∧ x.shared = true
    · rw [if_pos hrel] at hout hs'
      obtain ⟨rfl, hshared⟩ := hrel
      rw [hout, hs']
      exact .releasing hpc hx hshared
    · rw [if_neg hrel] at hout hs'
      rw [hout, hs']
      exact .kept hpc hx hrel
  | unsetting r => rw [hpc] at h; cases h; exact .unbound hpc
  | disowning r =>
    rw [hpc] at h
    simp only [State.resume] at h
    obtain ⟨x, hx, ⟨_, _, ⟨⟩, rfl, rfl⟩ | ⟨_, _, ⟨⟩, -⟩⟩ := onStack_cases h
    exact .disowned hpc hx
  | caching r =>
    rw [hpc] at h
    cases h
    split
    · next hroom => exact .cached hpc hroom
    · next hroom => exact .discarded hpc (Nat.not_lt.mp hroom)

/-- A step is a move of a thread, or the Cleaner running an action. -/
theorem step_cases {l : Label Thread} (h : s.step cfg l = some (out, s')) :
    (∃ t act, l = .thread t act ∧ t ∉ s.exited ∧ t ≠ cfg.cleaner ∧ Moves cfg s t act out s') ∨
      ∃ i c, l = .clean i ∧ s.cleanables[i]? = some c ∧ c.ran = false ∧ ¬ s.Reachable c.stack ∧
        out = .cleaned ∧
        s' = { s with
          cleanables := s.cleanables.set i { c with ran := true }
          arenas := s.arenas.modify c.arena
            fun a => if a.creator = cfg.cleaner then { a with closed := true } else a } := by
  cases l with
  | thread t act =>
    simp only [State.step] at h
    split at h
    · cases h
    · next hlive =>
      rw [not_or] at hlive
      refine .inl ⟨t, act, rfl, hlive.1, hlive.2, ?_⟩
      split at h
      · next hpc => exact call_cases hpc h
      · next pc vm hnot hpc => exact resume_cases h
      · cases h
  | clean i =>
    simp only [State.step, State.clean] at h
    split at h
    · cases h
    · next c hc =>
      split at h
      · cases h
      · next hfree =>
        rw [not_or] at hfree
        cases h
        exact .inr ⟨i, c, rfl, hc, by simpa using hfree.1, hfree.2, rfl, rfl⟩

end Cases

end FfiBenchmark.Pool
