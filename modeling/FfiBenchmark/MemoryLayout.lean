/-
What `SysinfoBenchmark` uses of `java.lang.foreign.MemoryLayout`: value layouts,
sequences of them, padding, structures of these, and the handles that read a
member.

Sizes and offsets are in bytes, `paddingLayout` included. A structure adds no
padding of its own: its members stand one after another, and building it fails
where one of them is not aligned. As from Java 22 on, a handle is used with a
segment and the offset at which the structure stands in it.
-/
import FfiBenchmark.Java
import FfiBenchmark.Lib.Bytes

namespace FfiBenchmark

open Bytes

/-- The Java type that a value layout reads. -/
inductive Carrier where
  | short
  | int
  | long
  deriving DecidableEq

@[simp] def Carrier.byteSize : Carrier → Nat
  | .short => 2
  | .int => 4
  | .long => 8

/-- A value of one of these types, or of a C integer type of that size. -/
inductive Scalar where
  | short (v : BitVec 16)
  | int (v : BitVec 32)
  | long (v : Long)
  deriving DecidableEq

namespace Scalar

def carrier : Scalar → Carrier
  | .short _ => .short
  | .int _ => .int
  | .long _ => .long

/-- The bytes of the value in memory. -/
def encode (order : Order) : Scalar → List UInt8
  | .short v => Bytes.encode (n := 2) order v
  | .int v => Bytes.encode (n := 4) order v
  | .long v => Bytes.encode (n := 8) order v

end Scalar

def Carrier.decode (order : Order) (bytes : List UInt8) : Carrier → Scalar
  | .short => .short (Bytes.decode order 2 bytes)
  | .int => .int (Bytes.decode order 4 bytes)
  | .long => .long (Bytes.decode order 8 bytes)

theorem length_encode (order : Order) (v : Scalar) :
    (v.encode order).length = v.carrier.byteSize := by
  cases v <;> exact Bytes.length_encode order _

theorem decode_encode (order : Order) (v : Scalar) :
    v.carrier.decode order (v.encode order) = v := by
  cases v with
  | short v => exact congrArg Scalar.short (Bytes.decode_encode (n := 2) order v)
  | int v => exact congrArg Scalar.int (Bytes.decode_encode (n := 4) order v)
  | long v => exact congrArg Scalar.long (Bytes.decode_encode (n := 8) order v)

structure ValueLayout where
  carrier : Carrier
  byteAlignment : Nat
  name : Option String

namespace ValueLayout

@[simp] def JAVA_SHORT : ValueLayout := ⟨.short, 2, none⟩
@[simp] def JAVA_INT : ValueLayout := ⟨.int, 4, none⟩
@[simp] def JAVA_LONG : ValueLayout := ⟨.long, 8, none⟩

@[simp] def withName (v : ValueLayout) (name : String) : ValueLayout := { v with name := some name }

/-- `byteAlignment` is a power of two. -/
@[simp] def withByteAlignment (v : ValueLayout) (byteAlignment : Nat) : ValueLayout :=
  { v with byteAlignment := byteAlignment }

end ValueLayout

/-- A member of a structure. -/
inductive MemoryLayout where
  | value (layout : ValueLayout)
  | padding (size : Nat) (name : Option String)
  | sequence (elementCount : Nat) (element : MemoryLayout) (name : Option String)

namespace MemoryLayout

@[simp] def byteSize : MemoryLayout → Nat
  | .value v => v.carrier.byteSize
  | .padding size _ => size
  | .sequence count element _ => count * element.byteSize

@[simp] def byteAlignment : MemoryLayout → Nat
  | .value v => v.byteAlignment
  | .padding _ _ => 1
  | .sequence _ element _ => element.byteAlignment

def name : MemoryLayout → Option String
  | .value v => v.name
  | .padding _ name => name
  | .sequence _ _ name => name

@[simp] def withName (name : String) : MemoryLayout → MemoryLayout
  | .value v => .value (v.withName name)
  | .padding size _ => .padding size (some name)
  | .sequence count element _ => .sequence count element (some name)

def paddingLayout (byteSize : Nat) : Except Exn MemoryLayout :=
  if byteSize = 0 then .error (.illegalArgument "Invalid layout size")
  else .ok (.padding byteSize none)

def sequenceLayout (elementCount : Nat) (element : MemoryLayout) : Except Exn MemoryLayout :=
  if element.byteSize % element.byteAlignment ≠ 0 then
    .error (.illegalArgument "Element layout size is not multiple of alignment")
  else .ok (.sequence elementCount element none)

/-- The values in a member that stands at `offset`. -/
def leaves (offset : Nat) : MemoryLayout → List (Nat × ValueLayout)
  | .value v => [(offset, v)]
  | .padding _ _ => []
  | .sequence count element _ =>
    (List.range count).flatMap fun i => element.leaves (offset + i * element.byteSize)

end MemoryLayout

structure StructLayout where
  elements : List MemoryLayout
  byteSize : Nat
  byteAlignment : Nat
  name : Option String

/-- The loop of `structLayout`: size and alignment so far, and the next element. -/
def addElement (size : Nat × Nat) (element : MemoryLayout) : Except Exn (Nat × Nat) :=
  if size.1 % element.byteAlignment ≠ 0 then
    .error (.illegalArgument "Invalid alignment constraint for member layout")
  else if size.1 + element.byteSize < 2 ^ 63 then
    .ok (size.1 + element.byteSize, max size.2 element.byteAlignment)
  else .error (.illegalArgument "Layout size exceeds Long.MAX_VALUE")

def structLayout (elements : List MemoryLayout) : Except Exn StructLayout := do
  let (byteSize, byteAlignment) ← elements.foldlM addElement (0, 1)
  return ⟨elements, byteSize, byteAlignment, none⟩

/-- A handle that reads one value of a structure. -/
structure VarHandle where
  enclosing : StructLayout
  offset : Nat
  layout : ValueLayout

/-- An argument of a handle. -/
inductive Coordinate where
  | segment (segment : MemorySegment)
  | offset (base : Long)

/-- `get` of a structure that stands in a segment at an offset: there must be
room for it, and it must be aligned. -/
def VarHandle.get (h : VarHandle) (order : Order) (m : Memory) : List Coordinate → Except Exn Scalar
  | [.segment segment, .offset base] =>
    if base.toInt < 0 ∨ segment.byteSize.toNat < base.toNat + h.enclosing.byteSize then
      .error .indexOutOfBounds
    else if (segment.address.toNat + base.toNat) % h.enclosing.byteAlignment ≠ 0 then
      .error (.illegalArgument "Target offset incompatible with alignment constraint")
    else
      let bytes := load m (segment.address.toNat + base.toNat + h.offset) h.layout.carrier.byteSize
      .ok (h.layout.carrier.decode order bytes)
  | _ => .error .wrongMethodType

/-- `groupElement(name)`: the first element of that name, with its offset. -/
def groupElement (name : String) (offset : Nat) :
    List MemoryLayout → Except Exn (Nat × MemoryLayout)
  | [] => .error (.illegalArgument ("Bad layout path: cannot resolve '" ++ name ++ "' in layout"))
  | element :: elements =>
    if element.name = some name then .ok (offset, element)
    else groupElement name (offset + element.byteSize) elements

namespace StructLayout

@[simp] def withName (l : StructLayout) (name : String) : StructLayout :=
  { l with name := some name }

def varHandle (l : StructLayout) (name : String) : Except Exn VarHandle := do
  match ← groupElement name 0 l.elements with
  | (offset, .value v) => return ⟨l, offset, v⟩
  | _ => throw (.illegalArgument "Path does not select a value layout")

/-- The values of the member `name`, each through a handle of its own. -/
def get (l : StructLayout) (order : Order) (m : Memory) (segment : MemorySegment) (name : String) :
    Except Exn (List Scalar) := do
  let (offset, element) ← groupElement name 0 l.elements
  (element.leaves offset).mapM fun leaf => VarHandle.get ⟨l, leaf.1, leaf.2⟩ order m
    [.segment segment, .offset 0]

/-- Where the values of the member `name` stand. -/
def valuesAt (l : StructLayout) (name : String) : Except Exn (List (Nat × Carrier)) := do
  let (offset, element) ← groupElement name 0 l.elements
  return (element.leaves offset).map fun leaf => (leaf.1, leaf.2.carrier)

/-- The segments that an allocator returns for the layout. -/
structure Allocated (l : StructLayout) (segment : MemorySegment) : Prop where
  byteSize : segment.byteSize.toNat = l.byteSize
  aligned : segment.address.toNat % l.byteAlignment = 0

end StructLayout

/-! ## Building a structure -/

/-- Every element is aligned where it stands, and the size stays a `long`. -/
def Fits (start : Nat) : List MemoryLayout → Prop
  | [] => True
  | e :: es =>
    start % e.byteAlignment = 0 ∧ start + e.byteSize < 2 ^ 63 ∧ Fits (start + e.byteSize) es

def totalSize (start : Nat) : List MemoryLayout → Nat
  | [] => start
  | e :: es => totalSize (start + e.byteSize) es

def maxAlignment (align : Nat) : List MemoryLayout → Nat
  | [] => align
  | e :: es => maxAlignment (max align e.byteAlignment) es

theorem paddingLayout_eq_ok {size : Nat} {l : MemoryLayout} :
    MemoryLayout.paddingLayout size = .ok l ↔ size ≠ 0 ∧ l = .padding size none := by
  rw [MemoryLayout.paddingLayout]
  split
  · next h => simp [h]
  · next h => simp [h, eq_comm]

theorem foldlM_addElement (start align : Nat) (elements : List MemoryLayout) :
    (Fits start elements ∧
      elements.foldlM addElement (start, align) =
        .ok (totalSize start elements, maxAlignment align elements)) ∨
    ¬ Fits start elements ∧ ∃ e, elements.foldlM addElement (start, align) = .error e := by
  induction elements generalizing start align with
  | nil => exact .inl ⟨trivial, rfl⟩
  | cons e es ih =>
    rw [List.foldlM_cons]
    by_cases haligned : start % e.byteAlignment = 0
    · by_cases hlt : start + e.byteSize < 2 ^ 63
      · have hadd : addElement (start, align) e = .ok (start + e.byteSize,
            max align e.byteAlignment) := by
          rw [addElement, if_neg (not_not.mpr haligned), if_pos hlt]
        rw [hadd, ok_bind]
        rcases ih (start + e.byteSize) (max align e.byteAlignment) with
          ⟨hfits, heq⟩ | ⟨hnot, exn, heq⟩
        · exact .inl ⟨⟨haligned, hlt, hfits⟩, heq⟩
        · exact .inr ⟨fun h => hnot h.2.2, exn, heq⟩
      · rw [addElement, if_neg (not_not.mpr haligned), if_neg hlt]
        exact .inr ⟨fun h => hlt h.2.1, _, rfl⟩
    · rw [addElement, if_pos haligned]
      exact .inr ⟨fun h => haligned h.1, _, rfl⟩

/-- A structure can be built just when every element is aligned where it stands. -/
theorem structLayout_eq_ok {elements : List MemoryLayout} {l : StructLayout} :
    structLayout elements = .ok l ↔
      Fits 0 elements ∧ l = ⟨elements, totalSize 0 elements, maxAlignment 1 elements, none⟩ := by
  rw [structLayout]
  rcases foldlM_addElement 0 1 elements with ⟨hfits, heq⟩ | ⟨hnot, e, heq⟩
  · rw [heq, ok_bind]
    constructor
    · intro h
      cases h
      exact ⟨hfits, rfl⟩
    · rintro ⟨-, rfl⟩
      rfl
  · rw [heq]
    constructor
    · intro h
      cases h
    · exact fun h => absurd h.1 hnot

/-! ## Reading -/

/-- Values one after the other from `offset` on. -/
def laid (offset : Nat) : List Scalar → List (Nat × Carrier)
  | [] => []
  | v :: vs => (offset, v.carrier) :: laid (offset + v.carrier.byteSize) vs

theorem VarHandle.get_ok {l : StructLayout} {segment : MemorySegment} (halloc : l.Allocated segment)
    {offset : Nat} {v : ValueLayout} {order : Order} {m : Memory} {value : Scalar}
    (hcarrier : v.carrier = value.carrier)
    (hload : load m (segment.address.toNat + offset) (value.encode order).length =
      value.encode order) :
    VarHandle.get ⟨l, offset, v⟩ order m [.segment segment, .offset 0] = .ok value := by
  have hzero : (0 : Long).toNat = 0 := rfl
  have hsize : ¬ ((0 : Long).toInt < 0 ∨ segment.byteSize.toNat < 0 + l.byteSize) := by
    rw [halloc.byteSize, show (0 : Long).toInt = 0 from rfl]
    omega
  have haligned : ¬ (segment.address.toNat + 0) % l.byteAlignment ≠ 0 := not_not.mpr halloc.aligned
  rw [length_encode] at hload
  simp only [VarHandle.get, hzero]
  rw [if_neg hsize, if_neg haligned, Nat.add_zero, hcarrier, hload, decode_encode]

theorem mapM_get {l : StructLayout} {segment : MemorySegment} (halloc : l.Allocated segment)
    {order : Order} {m : Memory} {values : List Scalar} {leaves : List (Nat × ValueLayout)}
    {offset : Nat}
    (hleaves : leaves.map (fun leaf => (leaf.1, leaf.2.carrier)) = laid offset values) {n : Nat}
    (hload : load m (segment.address.toNat + offset) n = values.flatMap (Scalar.encode order)) :
    leaves.mapM (fun leaf => VarHandle.get ⟨l, leaf.1, leaf.2⟩ order m
      [.segment segment, .offset 0]) =
      .ok values := by
  induction values generalizing leaves offset n with
  | nil =>
    obtain rfl := List.map_eq_nil_iff.mp hleaves
    rfl
  | cons value values ih =>
    obtain ⟨leaf, leaves, rfl, hleaf, hrest⟩ := List.map_eq_cons_iff.mp hleaves
    obtain ⟨rfl, hcarrier⟩ := Prod.mk.inj hleaf
    rw [List.flatMap_cons] at hload
    have hfirst := load_middle [] (value.encode order) _ hload
    have hnext :=
      load_middle (value.encode order) (values.flatMap (Scalar.encode order)) []
        (by rw [hload, List.append_nil])
    rw [length_encode, Nat.add_assoc] at hnext
    rw [List.mapM_cons, VarHandle.get_ok halloc hcarrier hfirst, ok_bind, ih hrest hnext]
    rfl

/-- A member is read as it was stored, if it stands where it was stored. -/
theorem StructLayout.get_ok {l : StructLayout} {segment : MemorySegment}
    (halloc : l.Allocated segment) {order : Order} {m : Memory} {name : String} {offset : Nat}
    {values : List Scalar} (hat : l.valuesAt name = .ok (laid offset values)) {n : Nat}
    (hload : load m (segment.address.toNat + offset) n = values.flatMap (Scalar.encode order)) :
    l.get order m segment name = .ok values := by
  obtain ⟨element, helement, hleaves⟩ := bind_eq_ok.mp hat
  rw [StructLayout.get, helement, ok_bind]
  exact mapM_get halloc (Except.ok.inj hleaves) hload

end FfiBenchmark
