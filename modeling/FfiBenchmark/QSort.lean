/-
`benchmark.QSortBenchmark` and the part of `library.c` that it calls: the C
library's `qsort` over `int`s in native memory, with a comparator in Java. JNI
goes by way of the static `stub` of `library.c`, Panama by way of an upcall
stub.

The C library is a parameter: for each call, the program by which it sorts. As
C says, it calls the comparator with pointers to elements of the array, and
sorts where the comparator's answers agree with each other. What the VM answers
is a parameter too. JNI does not say what a call of a method of a null class
does: such a run ends in `Stop.undefined`, of which nothing is claimed.
-/
import FfiBenchmark.Java
import FfiBenchmark.Lib.Loop
import FfiBenchmark.Lib.Sorting

namespace FfiBenchmark.QSort

open Bytes Loop Sorting

/-! ## `library.c` -/

abbrev JavaVM := Nat
abbrev Jclass := Nat

/-- What `GetStaticMethodID` finds a method by. -/
structure MethodId where
  name : String
  sig : String
  deriving DecidableEq

/-- `stub`; a null pointer is `none`. -/
structure Stub where
  vm : Option JavaVM
  cls : Option Jclass
  methodId : Option MethodId
  deriving DecidableEq

structure World where
  memory : Memory
  stub : Stub

def World.init (memory : Memory) : World := ⟨memory, ⟨none, none, none⟩⟩

/-- How code ends that does not return. -/
inductive Stop where
  /-- `exit(1)`, after the message -/
  | exit (message : String)
  /-- no end: C or JNI leaves open what follows -/
  | undefined
  /-- an exception thrown out of an upcall, which ends the VM -/
  | uncaught (e : Exn)
  | thrown (e : Exn)
  /-- a loop that is still running -/
  | running
  deriving DecidableEq

abbrev Native := EStateM Stop World

/-- What the VM answers to the functions of a `JNIEnv`. -/
structure Env where
  /-- none: not `JNI_OK` -/
  getJavaVM : Option JavaVM
  /-- false: null, though the class has the method -/
  getStaticMethodID : Bool
  /-- none: the VM is out of memory -/
  newGlobalRef : Option Jclass

/-- The C library's `qsort`; `sorter` is how it sorts. -/
def Libc.qsort (sorter : (n : Nat) → Sorter n) (base numElements : Long) (size : Nat)
    (comparator : Long → Long → Native Int) : Native PUnit :=
  (sorter numElements.toNat).program.exec
    (fun i j => comparator (base + .ofNat 64 (i * size)) (base + .ofNat 64 (j * size)))
    fun σ w => { w with memory := permuted base.toNat size σ w.memory }

def sizeofJint : Nat := 4

def ffiBenchmarkQsort (sorter : (n : Nat) → Sorter n) (base numElements : Long)
    (comparator : Long → Long → Native Int) : Native PUnit :=
  Libc.qsort sorter base numElements sizeofJint comparator

/-! ## The comparators -/

/-- `Integer.compare(x, y)` -/
def integerCompare (x y : Int) : Int := if x < y then -1 else if x = y then 0 else 1

/-- `UNSAFE.getInt(address)` -/
def unsafeGetInt (order : Order) (m : Memory) (address : Long) : Int :=
  (decode order 4 (load m address.toNat 4)).toInt

/-- `MemorySegment.get(JAVA_INT, offset)` -/
def getJavaInt (order : Order) (m : Memory) (seg : MemorySegment) (offset : Long) :
    Except Exn Int :=
  if seg.Encloses offset 4 then
    if (seg.address + offset).toNat % 4 = 0 then .ok (unsafeGetInt order m (seg.address + offset))
    else .error (.illegalArgument "Misaligned access at address")
  else .error .indexOutOfBounds

/-- `MemorySegment.set(JAVA_INT, offset, value)` -/
def setJavaInt (order : Order) (m : Memory) (seg : MemorySegment) (offset : Long) (value : Int) :
    Except Exn Memory :=
  if seg.Encloses offset 4 then
    if (seg.address + offset).toNat % 4 = 0 then
      .ok (store m (seg.address + offset).toNat (encode (n := 4) order (.ofInt 32 value)))
    else .error (.illegalArgument "Misaligned access at address")
  else .error .indexOutOfBounds

/-- `qsortCompare(long a, long b)` -/
def qsortCompareLong (order : Order) (m : Memory) (a b : Long) : Int :=
  integerCompare (unsafeGetInt order m a) (unsafeGetInt order m b)

/-- `qsortCompare(MemorySegment elem1, MemorySegment elem2)` -/
def qsortCompareSegment (order : Order) (m : Memory) (elem1 elem2 : MemorySegment) :
    Except Exn Int := do
  let x ← getJavaInt order m elem1 0
  let y ← getJavaInt order m elem2 0
  return integerCompare x y

/-- The methods called `qsortCompare`. -/
inductive StaticMethod where
  | long (f : Order → Memory → Long → Long → Int)
  | segment (f : Order → Memory → MemorySegment → MemorySegment → Except Exn Int)

def staticMethods : List (MethodId × StaticMethod) :=
  [(⟨"qsortCompare", "(JJ)I"⟩, .long qsortCompareLong),
    (⟨"qsortCompare", "(Ljava/lang/foreign/MemorySegment;Ljava/lang/foreign/MemorySegment;)I"⟩,
      .segment qsortCompareSegment)]

def getStaticMethodID (env : Env) (name sig : String) : Option MethodId :=
  if env.getStaticMethodID then (staticMethods.map Prod.fst).find? (· = ⟨name, sig⟩) else none

/-- `CallStaticIntMethod` with two `jlong`s -/
def callStaticIntMethod (order : Order) (cls : Option Jclass) (methodId : Option MethodId)
    (a b : Long) :
    Native Int := do
  match cls, methodId.bind (List.lookup · staticMethods) with
  | some _, some (.long f) => return f order (← get).memory a b
  | _, _ => throw .undefined

/-- `qsortCompare` of `library.c` -/
def qsortCompare (order : Order) (a b : Long) : Native Int := do
  let w ← get
  if w.stub.vm = none then throw .undefined
  else callStaticIntMethod order w.stub.cls w.stub.methodId a b

/-- A pointer as an argument of the layout `ADDRESS.withTargetLayout(JAVA_INT)`. -/
def targetSegment (pointer : Long) : Except Exn MemorySegment :=
  if h : pointer.toNat % 4 = 0 then
    .ok ⟨pointer, 4, by decide, by have := pointer.isLt; simp; omega⟩
  else .error (.illegalArgument "Invalid alignment constraint for address")

/-- `qsortComparator`, the upcall stub -/
def qsortComparator (order : Order) (a b : Long) : Native Int := do
  let w ← get
  match (do qsortCompareSegment order w.memory (← targetSegment a) (← targetSegment b)) with
  | .ok c => return c
  | .error e => throw (.uncaught e)

/-! ## The native methods -/

/-- The body of `if (stub.vm == NULL)` -/
def fillStub (env : Env) : Native PUnit :=
  match env.getJavaVM with
  | none => throw (.exit "Failed to get vm")
  | some vm =>
    match getStaticMethodID env "qsortCompare" "(JJ)I" with
    | none => throw (.exit "Failed to find method")
    | some methodId => do
      modify fun w => { w with stub := { w.stub with cls := env.newGlobalRef } }
      modify fun w => { w with stub := { w.stub with methodId := some methodId } }
      modify fun w => { w with stub := { w.stub with vm := some vm } }

/-- `Java_benchmark_QSortBenchmark_qsort` -/
def qsort (order : Order) (env : Env) (sorter : (n : Nat) → Sorter n) (address elements : Long) :
    Native PUnit := do
  let w ← get
  if w.stub.vm = none then fillStub env
  Libc.qsort sorter address elements sizeofJint (qsortCompare order)

/-- How the benchmark calls `qsort`. -/
inductive Way where
  | jni (env : Env)
  | panama

structure Call where
  way : Way
  sorter : (n : Nat) → Sorter n
  address : Long
  elements : Long

def Call.run (order : Order) (c : Call) : Native PUnit :=
  match c.way with
  | .jni env => qsort order env c.sorter c.address c.elements
  | .panama => ffiBenchmarkQsort c.sorter c.address c.elements (qsortComparator order)

/-! ## `QSortBenchmark` -/

/-- What an arena allocates has the size and the alignment that it is asked for. -/
structure Arena where
  allocate : Long → Long → Option MemorySegment
  allocated : ∀ {byteSize byteAlignment segment}, allocate byteSize byteAlignment = some segment →
    segment.byteSize = byteSize ∧ byteAlignment.toNat ∣ segment.address.toNat

/-- The size of `MemoryLayout.sequenceLayout(length, JAVA_INT)` -/
def sequenceSize (length : Long) : Except Exn Long :=
  if length.toInt < 0 then .error (.illegalArgument "Invalid element count")
  else if length.toInt * 4 < 2 ^ 63 then .ok (length * 4)
  else .error (.illegalArgument "Layout size exceeds Long.MAX_VALUE")

def allocate (arena : Arena) (length : Long) : Except Exn MemorySegment := do
  let byteSize ← sequenceSize length
  match arena.allocate byteSize 4 with
  | none => throw .outOfMemory
  | some segment => return segment

/-- An exception of the benchmark's own code. -/
def orThrow {α : Type} : Except Exn α → Native α
  | .ok a => pure a
  | .error e => throw (.thrown e)

/-- `for (int i = 0; i < length; i++)` -/
def forInt (length : Long) (body : Int → Native PUnit) : Native PUnit := do
  let exit ← loop (β := Empty)
    (fun i : Int => do
      if i < length.toInt then
        body i
        return .next (int32 (i + 1))
      else return .leave i)
    (length.toNat + 1) 0
  match exit with
  | .left _ => return ⟨⟩
  | .running => throw .running

/-- `i * 4L` -/
def offset (i : Int) : Long := .ofInt 64 i * 4

/-- The fields of a benchmark after its `setup`; `length` is the parameter. -/
structure QSortBenchmark where
  length : Long
  segment : MemorySegment
  address : Long

/-- `segment.set(JAVA_INT, i * 4L, i)` -/
def fill (order : Order) (segment : MemorySegment) (i : Int) : Native PUnit := do
  let m ← orThrow (setJavaInt order (← get).memory segment (offset i) i)
  modify fun w => { w with memory := m }

def setup (order : Order) (arena : Arena) (length : Long) : Native QSortBenchmark := do
  let segment ← orThrow (allocate arena length)
  let zeros := List.replicate segment.byteSize.toNat 0
  modify fun w => { w with memory := store w.memory segment.address.toNat zeros }
  forInt length (fill order segment)
  return ⟨length, segment, segment.address⟩

def assertStatus (order : Order) (b : QSortBenchmark) : Native PUnit :=
  forInt b.length fun i => do
    let value ← orThrow (getJavaInt order (← get).memory b.segment (offset i))
    if value ≠ i then throw (.thrown .assertionError)

/-- `qsortJni()`, `qsortPanama()` -/
def QSortBenchmark.call (b : QSortBenchmark) (way : Way) (sorter : (n : Nat) → Sorter n) : Call :=
  match way with
  | .jni env => ⟨.jni env, sorter, b.address, b.length⟩
  | .panama => ⟨.panama, sorter, b.segment.address, b.length⟩

/-- A round of the loop of `main`; an `assertStatus` comes after each call. -/
structure Session where
  arena : Arena
  length : Long
  calls : List (Way × ((n : Nat) → Sorter n))

def Session.run (order : Order) (s : Session) : Native PUnit := do
  let b ← setup order s.arena s.length
  s.calls.forM fun c => do
    (b.call c.1 c.2).run order
    assertStatus order b

/-- `main`, with any lengths and calls -/
def main (order : Order) (sessions : List Session) : Native PUnit :=
  sessions.forM (Session.run order)

end FfiBenchmark.QSort
