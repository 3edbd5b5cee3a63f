/-
`struct sysinfo` as C lays it out on LP64, and as `benchmark.SysinfoBenchmark`
describes it to `java.lang.foreign`.

What the kernel answers is a parameter: the values of the members, and what it
leaves in the bytes between them. `sysinfoLayoutOf` is the source's layout with
its two paddings left open. With the paddings of the source, 48 and 32 bytes,
the layout cannot be built. It can be built and agrees with C for 48 and 32
bits, and for no other two paddings (`views_iff`). `getMemUnitPanama` would throw
for those too, as it gives its handle no offset (`getMemUnitPanama_eq_error`).
-/
import FfiBenchmark.Lib.Layout
import FfiBenchmark.MemoryLayout

namespace FfiBenchmark.Sysinfo

open Bytes Layout ValueLayout MemoryLayout

/-! ## `struct sysinfo` -/

/-- The types of the members. -/
inductive CType where
  | char
  | unsignedShort
  | unsignedInt
  | signedLong
  | unsignedLong

def CType.sizeof : CType → Nat
  | .char => 1
  | .unsignedShort => 2
  | .unsignedInt => 4
  | .signedLong => 8
  | .unsignedLong => 8

theorem CType.sizeof_pos (type : CType) : 0 < type.sizeof := by cases type <;> decide

/-- `type name[count]` -/
def declare (type : CType) (name : String) (count : Nat) : Member String :=
  ⟨name, count * type.sizeof, type.sizeof, type.sizeof_pos⟩

def structSysinfo : List (Member String) :=
  [declare .signedLong "uptime" 1,
    declare .signedLong "loads" 3,
    declare .unsignedLong "totalram" 1,
    declare .unsignedLong "freeram" 1,
    declare .unsignedLong "sharedram" 1,
    declare .unsignedLong "bufferram" 1,
    declare .unsignedLong "totalswap" 1,
    declare .unsignedLong "freeswap" 1,
    declare .unsignedShort "procs" 1,
    declare .unsignedShort "pad" 1,
    declare .unsignedLong "totalhigh" 1,
    declare .unsignedLong "freehigh" 1,
    declare .unsignedInt "mem_unit" 1,
    declare .char "_f" (20 - 2 * CType.unsignedLong.sizeof - CType.unsignedInt.sizeof)]

def sizeofSysinfo : Nat := Layout.size structSysinfo

/-- A value of the struct; `_f` has no elements. -/
structure Info where
  uptime : BitVec 64
  loads : Fin 3 → BitVec 64
  totalram : BitVec 64
  freeram : BitVec 64
  sharedram : BitVec 64
  bufferram : BitVec 64
  totalswap : BitVec 64
  freeswap : BitVec 64
  procs : BitVec 16
  pad : BitVec 16
  totalhigh : BitVec 64
  freehigh : BitVec 64
  memUnit : BitVec 32

/-- The values of the member of that name. -/
def Info.values (info : Info) : String → List Scalar
  | "uptime" => [.long info.uptime]
  | "loads" => [.long (info.loads 0), .long (info.loads 1), .long (info.loads 2)]
  | "totalram" => [.long info.totalram]
  | "freeram" => [.long info.freeram]
  | "sharedram" => [.long info.sharedram]
  | "bufferram" => [.long info.bufferram]
  | "totalswap" => [.long info.totalswap]
  | "freeswap" => [.long info.freeswap]
  | "procs" => [.short info.procs]
  | "pad" => [.short info.pad]
  | "totalhigh" => [.long info.totalhigh]
  | "freehigh" => [.long info.freehigh]
  | "mem_unit" => [.int info.memUnit]
  | _ => []

theorem length_values (order : Order) (info : Info) :
    ∀ m ∈ structSysinfo, ((info.values m.name).flatMap (Scalar.encode order)).length = m.size := by
  simp [structSysinfo, declare, CType.sizeof, Info.values, length_encode, Scalar.carrier,
    Carrier.byteSize]

/-- The members with their bytes. -/
def Info.slots (order : Order) (info : Info) : List (Slot String) :=
  structSysinfo.pmap (fun m h => ⟨m, (info.values m.name).flatMap (Scalar.encode order), h⟩)
    (length_values order info)

/-! ## `library.c` -/

/-- What the kernel answers. -/
structure Answer where
  info : Info
  /-- the bytes of the struct that belong to no member -/
  rest : Nat → UInt8

/-- The memory after the call with the pointer `info`. -/
def ffiBenchmarkSysinfo (order : Order) (answer : Answer) (info : Nat) (m : Memory) : Memory :=
  storeAll (store m info ((List.range sizeofSysinfo).map answer.rest))
    (blocks info 0 (answer.info.slots order))

/-- `Java_benchmark_SysinfoBenchmark_getMemUnit` -/
def getMemUnit (answer : Answer) : BitVec 32 := answer.info.memUnit

/-! ## `SysinfoBenchmark` -/

def sysinfoLayoutOf (afterProcs afterMemUnit : Nat) : Except Exn StructLayout := do
  let loads ← sequenceLayout 3 (.value JAVA_LONG)
  let padding ← paddingLayout afterProcs
  let f ← paddingLayout afterMemUnit
  let layout ← structLayout [
    .value (JAVA_LONG.withName "uptime"),
    loads.withName "loads",
    .value (JAVA_LONG.withName "totalram"),
    .value (JAVA_LONG.withName "freeram"),
    .value (JAVA_LONG.withName "sharedram"),
    .value (JAVA_LONG.withName "bufferram"),
    .value (JAVA_LONG.withName "totalswap"),
    .value (JAVA_LONG.withName "freeswap"),
    .value ((JAVA_SHORT.withName "procs").withByteAlignment 8),
    padding,
    .value ((JAVA_LONG.withName "totalhigh").withByteAlignment 8),
    .value (JAVA_LONG.withName "freehigh"),
    .value (JAVA_INT.withName "mem_unit"),
    f.withName "_f"]
  return layout.withName "sysinfo"

/-- `paddingLayout(48)` after `procs`, and `paddingLayout(32)` for `_f`. -/
def sysinfoLayout : Except Exn StructLayout := sysinfoLayoutOf 48 32

/-- The static fields that are made from the layout. -/
structure Statics where
  sysinfoLayout : StructLayout
  memUnitHandle : VarHandle

/-- The part of the static initializer that makes them. -/
def clinit (sysinfoLayout : Except Exn StructLayout) : Except Exn Statics := do
  let layout ← sysinfoLayout
  let memUnitHandle ← layout.varHandle "mem_unit"
  return ⟨layout, memUnitHandle⟩

/-- `getMemUnitPanama` and its variants, on the segment they allocate. -/
def getMemUnitPanama (statics : Statics) (order : Order) (answer : Answer) (info : MemorySegment)
    (m : Memory) :
    Except Exn Scalar :=
  statics.memUnitHandle.get order (ffiBenchmarkSysinfo order answer info.address.toNat m)
    [.segment info]

end FfiBenchmark.Sysinfo
