/-
`benchmark.experimental.GetStringUTF8Benchmark`: strings in native memory,
read sixteen bytes at a time.

A scan keeps a log of what it reads and of the `int` expressions it computes,
with the value each has before it is wrapped. A Java string is its UTF-16 code
units. `malformed` says how many bytes of malformed input the JDK's decoder
replaces by one U+FFFD, which its documentation leaves open.
-/
import FfiBenchmark.Java
import FfiBenchmark.Lib.Loop
import FfiBenchmark.Lib.Unicode

namespace FfiBenchmark.GetString

open Loop Unicode

/-- A segment and the memory it is in: `bytes i` is the byte at `address + i`,
also past the end of the segment. -/
structure Segment where
  address : Long
  byteSize : Long
  bytes : Nat → UInt8
  byteSize_nonneg : 0 ≤ byteSize.toInt

/-- A Java `byte`. -/
def signed (b : UInt8) : Int := b.toBitVec.toInt

/-! ## The log -/

inductive Event where
  /-- A round of a loop. -/
  | round
  /-- A 16-lane load. -/
  | load (offset : Int)
  /-- A `get` of a `JAVA_BYTE`. -/
  | get (offset : Int)
  /-- An `int` expression. -/
  | int (value : Int)
  deriving DecidableEq

abbrev Scan := Method (List Event)

def log (e : Event) : Scan Unit := modify (· ++ [e])

def int (value : Int) : Scan Int := do
  log (.int value)
  return int32 value

/-! ## Vectors -/

/-- `SPECIES.length()` of `SPECIES_128` -/
def speciesLength : Nat := 16

/-- `SPECIES.loopBound(length)` -/
def loopBound (length : Int) : Int := length / speciesLength * speciesLength

/-- `VectorOperators.LE`, `VectorOperators.EQ` -/
inductive Comparison where
  | le
  | eq

def Comparison.test : Comparison → Int → Int → Bool
  | .le, a, b => a ≤ b
  | .eq, a, b => a = b

/-- `ByteVector.compare(op, e)` -/
def compare (lanes : List Int) (op : Comparison) (e : Int) : List Bool :=
  lanes.map fun lane => op.test lane e

/-- `VectorMask.firstTrue()`: the number of lanes if none is set. -/
def firstTrue (mask : List Bool) : Nat := mask.findIdx id

namespace Segment

/-- `Objects.checkIndex` of a read or write of `size` bytes -/
abbrev Inside (seg : Segment) (offset size : Int) : Prop :=
  0 ≤ offset ∧ offset + size ≤ seg.byteSize.toInt

def get (seg : Segment) (offset : Int) : Scan Int := do
  log (.get offset)
  if seg.Inside offset 1 then return signed (seg.bytes offset.toNat)
  else throw .indexOutOfBounds

/-- `ByteVector.fromMemorySegment(SPECIES, segment, offset, …)` -/
def fromMemorySegment (seg : Segment) (offset : Int) : Scan (List Int) := do
  log (.load offset)
  if seg.Inside offset speciesLength then
    return (List.range speciesLength).map fun k => signed (seg.bytes (offset.toNat + k))
  else throw .indexOutOfBounds

/-- `MemorySegment.copy(segment, JAVA_BYTE, 0, new byte[len], 0, len)` -/
def copyToArray (seg : Segment) (len : Int) : Except Exn (List UInt8) :=
  if len < 0 then .error .negativeArraySize
  else if seg.Inside 0 len then .ok ((List.range len.toNat).map seg.bytes)
  else .error .indexOutOfBounds

/-- `MemorySegment.copyFrom` of an array -/
def copyFrom (seg : Segment) (array : List UInt8) : Except Exn Segment :=
  if seg.Inside 0 array.length then .ok { seg with bytes := fun i => array.getD i (seg.bytes i) }
  else .error .indexOutOfBounds

def set (seg : Segment) (offset : Int) (b : UInt8) : Except Exn Segment :=
  if seg.Inside offset 1 then
    .ok { seg with bytes := fun i => if i = offset.toNat then b else seg.bytes i }
  else .error .indexOutOfBounds

/-- `MemorySegment.reinterpret(newSize)` -/
def reinterpret (seg : Segment) (newSize : Long) (h : 0 ≤ newSize.toInt) : Segment :=
  { seg with byteSize := newSize, byteSize_nonneg := h }

/-- The first zero byte among the next `n` from `i`. -/
def findZero (bytes : Nat → UInt8) (i : Nat) : Nat → Option Nat
  | 0 => none
  | n + 1 => if bytes i = 0 then some i else findZero bytes (i + 1) n

/-- `MemorySegment.getString(0, UTF_8)`: a string that is too long for a
platform string is refused before one that has no terminator. The limit is taken
as `2 ^ 31 - 1` bytes; a VM may refuse arrays that are a few bytes shorter. -/
def getString (malformed : List UInt8 → Nat) (seg : Segment) : Except Exn (List UInt16) :=
  match findZero seg.bytes 0 (min seg.byteSize.toInt 2147483647).toNat with
  | some p => .ok (decode malformed ((List.range p).map seg.bytes))
  | none => if 2147483647 < seg.byteSize.toInt then .error (.illegalArgument "String too large")
    else .error .indexOutOfBounds

end Segment

/-! ## `strlen` -/

/-- A round of the first loop; the state is `offset` and `ascii`. -/
def asciiBlock (segment : Segment) (upperBound : Int) : Int × Bool → Scan (Turn (Int × Bool) Int)
  | (offset, ascii) =>
    if offset < upperBound then do
      log .round
      let lanes ← segment.fromMemorySegment offset
      let idx := firstTrue (compare lanes .le 0)
      if idx < speciesLength then do
        let b ← segment.get (← int (offset + idx))
        if b = 0 then return .ret (← int (offset + idx))
        else return .leave (offset, false)
      else return .next (← int (offset + speciesLength), ascii)
    else return .leave (offset, ascii)

/-- A round of the second loop. -/
def nonAsciiBlock (segment : Segment) (upperBound : Int) : Int × Bool → Scan (Turn (Int × Bool) Int)
  | (offset, ascii) =>
    if offset < upperBound then do
      log .round
      let lanes ← segment.fromMemorySegment offset
      let idx := firstTrue (compare lanes .eq 0)
      if idx < speciesLength then return .ret (← int (-(← int (offset + idx))))
      else return .next (← int (offset + speciesLength), ascii)
    else return .leave (offset, ascii)

/-- A round of the third loop. -/
def scalar (segment : Segment) (length : Int) : Int × Bool → Scan (Turn (Int × Bool) Int)
  | (offset, ascii) =>
    if offset < length then do
      log .round
      let b ← segment.get offset
      if b = 0 then
        if ascii then return .ret offset else return .ret (← int (-offset))
      else
        let ascii := if b < 0 then false else ascii
        return .next (← int (offset + 1), ascii)
    else return .leave (offset, ascii)

/-- A negative value is a string that is not ASCII; none, a loop that is still running. -/
def strlen (fuel : Nat) (segment : Segment) (length : Int) : Scan (Option Int) := do
  let upperBound := loopBound length
  let exit ← loop (asciiBlock segment upperBound) fuel (0, true)
  let exit ← exit.andThen fun s =>
    if s.1 < upperBound then loop (nonAsciiBlock segment upperBound) fuel s else return .left s
  let exit ← exit.andThen (loop (scalar segment length) fuel)
  match exit with
  | .left _ => throw (.illegalArgument "String too large")
  | .returned r => return some r
  | .running => return none

/-! ## Strings -/

/-- `new String(array, LATIN1)` -/
def newAsciiString (array : List UInt8) : List UInt16 := array.map UInt8.toUInt16

def getUtf8String (malformed : List UInt8 → Nat) (fuel : Nat) (segment : Segment) :
    Scan (Option (List UInt16)) := do
  let length := segment.byteSize.toInt
  if segment.address.toInt.tmod speciesLength ≠ 0 then
    return some (← MonadExcept.ofExcept (segment.getString malformed))
  else
    match ← strlen fuel segment (int32 (min length 2147483647)) with
    | none => return none
    | some len =>
      if len = 0 then return some []
      else
        let (len, ascii) := if len < 0 then (int32 (-len), false) else (len, true)
        let bytes ← MonadExcept.ofExcept (segment.copyToArray len)
        return some (if ascii then newAsciiString bytes else decode malformed bytes)

/-- `String.getBytes(UTF_8)`: the length of an array is an `int`. -/
def getBytes (str : List UInt16) : Except Exn (List UInt8) :=
  if (encode str).length < 2 ^ 31 then .ok (encode str) else .error .outOfMemory

/-- `arena.allocate(MemoryLayout.sequenceLayout(count, JAVA_BYTE).withByteAlignment(alignment))`,
where `arena` maps a size and an alignment to what `Arena.allocate` returns -/
def allocate (arena : Long → Long → Except Exn Segment) (count : Int) (alignment : Long) :
    Except Exn Segment :=
  if count < 0 then .error (.illegalArgument "Invalid element count")
  else arena (.ofInt 64 count) alignment

def allocateAlignmentString (arena : Long → Long → Except Exn Segment) (str : List UInt16) :
    Except Exn Segment := do
  let bytes ← getBytes str
  let res ← allocate arena (int32 (bytes.length + 1)) (.ofNat 64 speciesLength)
  if res.address.toInt.tmod speciesLength ≠ 0 then throw .assertionError
  else
    let res ← res.copyFrom bytes
    res.set bytes.length 0

end FfiBenchmark.GetString
