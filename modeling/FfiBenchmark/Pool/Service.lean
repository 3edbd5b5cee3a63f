/-
What `NativeStack` is for: a service that lends stacks to threads, every call of
it in one step.

There is no lock here, no `owner` field, no `frames` array and no arithmetic
modulo `2^64`. A stack is a region of bytes with the offsets its open frames
began at (`Sheet`); a thread holds one stack at most, and its calls on that stack
do what they say over the natural numbers. Calls on any other stack are refused.

`Next` leaves open what the VM decides: where a new region is, and whether there
is memory for it. A sheet does not tell how long the array of saved offsets has
grown, so `Next` leaves open too whether a `push` asks for a longer one.
-/
import FfiBenchmark.Pool
import Mathlib.Logic.Function.Basic

namespace FfiBenchmark.Pool

open NativeStack (Call Value)

/-- A stack as its user sees it: `size` bytes at `base`, used up to `offset`, and
the offsets its open frames began at, the outermost first. -/
structure Sheet where
  base : Nat
  size : Nat
  shared : Bool
  offset : Nat
  marks : List Nat
  deriving DecidableEq

namespace Sheet

/-- The arguments of an `allocate` are in order. -/
def Valid (byteSize byteAlignment : Long) : Prop :=
  0 ≤ byteSize.toInt ∧ ∃ k : Nat, byteAlignment.toInt = 2 ^ k

/-- A block of `byteSize` bytes fits at the address `start`, the first above the offset. -/
structure Fits (sheet : Sheet) (byteSize byteAlignment : Long) (start : Nat) : Prop where
  valid : Valid byteSize byteAlignment
  least : IsLeast {m | byteAlignment.toNat ∣ m ∧ sheet.base + sheet.offset ≤ m} start
  room : start + byteSize.toNat ≤ sheet.base + sheet.size

/-- The exception of an `allocate` that is refused. -/
def Refused (byteSize byteAlignment : Long) (e : Exn) : Prop :=
  (Valid byteSize byteAlignment → e = .indexOutOfBounds) ∧
    (¬ Valid byteSize byteAlignment → ∃ message, e = .illegalArgument message)

/-- What a call by its holder does to a stack, but for the `close` that gives it up. -/
inductive Does (sheet : Sheet) : Call → Outcome → Sheet → Prop where
  | pushed {heap} (hroom : sheet.marks.length < 2 ^ 30) :
      Does sheet (.push heap) (.returned .this)
      { sheet with marks := sheet.marks ++ [sheet.offset] }
  /-- `8 * 2 ^ k` offsets are saved, and there is no memory for twice as many, or no such array. -/
  | full {heap e k} (hfull : sheet.marks.length = 8 * 2 ^ k)
      (hheap : sheet.marks.length < 2 ^ 30 → heap (sheet.marks.length * 2) = false)
      (he : e = if 2 ^ 30 ≤ sheet.marks.length then .negativeArraySize else .outOfMemory) :
      Does sheet (.push heap) (.threw e) sheet
  | allocated {byteSize byteAlignment start slice} (hfit : sheet.Fits byteSize byteAlignment start)
      (haddress : slice.address.toNat = start % 2 ^ 64) (hsize : slice.byteSize = byteSize) :
      Does sheet (.allocate byteSize byteAlignment) (.returned (.slice slice))
        { sheet with offset := start - sheet.base + byteSize.toNat }
  | refused {byteSize byteAlignment e} (hno : ∀ start, ¬ sheet.Fits byteSize byteAlignment start)
      (he : Refused byteSize byteAlignment e) :
      Does sheet (.allocate byteSize byteAlignment) (.threw e) sheet
  | empty (hmarks : sheet.marks = []) :
      Does sheet .close (.threw (.illegalState "Stack is empty")) sheet
  | closed {ms mark} (hmarks : sheet.marks = ms ++ [mark])
      (hkeep : ¬ (ms = [] ∧ sheet.shared = true)) :
      Does sheet .close (.returned (.closed false)) { sheet with offset := mark, marks := ms }

end Sheet

/-- A call of the service; `thenPush` tells the `getStack` that `pushStack` calls. -/
inductive Request where
  | getStack (thenPush : Bool)
  | call (stack : Nat) (c : Call)
  | exit

/-- A call with its result. -/
structure Event (Thread : Type) where
  thread : Thread
  request : Request
  outcome : Outcome

/-- The stacks made so far, the stack each thread holds, and the stacks to be lent again. -/
structure Service (Thread : Type) where
  sheets : List Sheet
  holds : Thread → Option Nat
  free : List Nat

namespace Service

variable {Thread : Type}

def init (Thread : Type) : Service Thread where
  sheets := []
  holds _ := none
  free := []

variable [DecidableEq Thread]

inductive Next (cfg : Config Thread) (a : Service Thread) :
    Event Thread → Service Thread → Prop where
  /-- A thread gets the stack it holds, -/
  | again {t r thenPush} (hb : a.holds t = some r) : Next cfg a ⟨t, .getStack thenPush, .stack r⟩ a
  /-- a virtual thread the one that was given up last, -/
  | recycled {t r rest thenPush} (hb : a.holds t = none) (hv : cfg.isVirtual t = true)
      (hfree : a.free = rest ++ [r]) :
      Next cfg a ⟨t, .getStack thenPush, .stack r⟩
      { a with holds := Function.update a.holds t (some r), free := rest }
  /-- or a new one. -/
  | fresh {t base thenPush} (hb : a.holds t = none) (hfree : cfg.isVirtual t = true → a.free = [])
      (hrange : base + cfg.stackSize.toNat ≤ 2 ^ 64) :
      Next cfg a ⟨t, .getStack thenPush, .stack a.sheets.length⟩ { a with
        sheets := a.sheets ++ [⟨base, cfg.stackSize.toNat, cfg.isVirtual t, 0, []⟩]
        holds := Function.update a.holds t (some a.sheets.length) }
  | exhausted {t thenPush} (hb : a.holds t = none) (hfree : cfg.isVirtual t = true → a.free = []) :
      Next cfg a ⟨t, .getStack thenPush, .threw .outOfMemory⟩ a
  | foreign {t r c} (hlt : r < a.sheets.length) (hb : a.holds t ≠ some r) :
      Next cfg a ⟨t, .call r c, .threw NativeStack.wrongThread⟩ a
  | called {t r c out sheet sheet'} (hb : a.holds t = some r) (hsheet : a.sheets[r]? = some sheet)
      (h : sheet.Does c out sheet') :
      Next cfg a ⟨t, .call r c, out⟩ { a with sheets := a.sheets.set r sheet' }
  /-- The last frame of a shared stack is closed. -/
  | released {t r sheet mark} (hb : a.holds t = some r) (hsheet : a.sheets[r]? = some sheet)
      (hshared : sheet.shared = true) (hmarks : sheet.marks = [mark]) :
      Next cfg a ⟨t, .call r .close, .returned (.closed true)⟩ {
        sheets := a.sheets.set r { sheet with offset := mark, marks := [] }
        holds := Function.update a.holds t none
        free := if a.free.length < cfg.cacheLimit then a.free ++ [r] else a.free }
  | exited {t} : Next cfg a ⟨t, .exit, .exited⟩ { a with holds := Function.update a.holds t none }

end Service

end FfiBenchmark.Pool
