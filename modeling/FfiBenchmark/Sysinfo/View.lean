/-
The Panama view of `struct sysinfo` against what C stores.

`views_iff` is over every pair of paddings: the layout can be built and decodes
what C encodes just when the paddings are the 6 and 4 bytes that C leaves. It
rests on `Layout.load_blocks` for what C stored and on `structLayout_eq_ok` for
what can be built. The source has 48 and 32, with which nothing can be built.

That is about the layout and its handle, used with a segment and an offset. The
source's own use of the handle, with a segment only, throws whatever the layout.
-/
import FfiBenchmark.Sysinfo

namespace FfiBenchmark.Sysinfo

open Bytes Layout ValueLayout MemoryLayout

/-- The members that the Java side names, `_f` apart. -/
def named : List String :=
  ["uptime", "loads", "totalram", "freeram", "sharedram", "bufferram", "totalswap", "freeswap",
    "procs", "totalhigh", "freehigh", "mem_unit"]

/-- The view decodes the answer of the kernel. -/
structure Decodes (order : Order) (answer : Answer) (statics : Statics) : Prop where
  reads : ∀ segment m, statics.sysinfoLayout.Allocated segment → ∀ name ∈ named,
    statics.sysinfoLayout.get order (ffiBenchmarkSysinfo order answer segment.address.toNat m)
      segment name = .ok (answer.info.values name)
  size : statics.sysinfoLayout.byteSize = sizeofSysinfo
  inside : ∀ segment m x, statics.sysinfoLayout.Allocated segment →
    x < segment.address.toNat ∨ segment.address.toNat + segment.byteSize.toNat ≤ x →
      ffiBenchmarkSysinfo order answer segment.address.toNat m x = m x
  memUnit : ∀ segment m, statics.sysinfoLayout.Allocated segment →
    statics.memUnitHandle.get order (ffiBenchmarkSysinfo order answer segment.address.toNat m)
      [.segment segment, .offset 0] = .ok (.int (getMemUnit answer))

/-- The class can be initialized with that layout, and its view decodes the answer. -/
def Views (order : Order) (answer : Answer) (layout : Except Exn StructLayout) : Prop :=
  ∃ statics, clinit layout = .ok statics ∧ Decodes order answer statics

/-! ## What C stores -/

theorem members_slots (order : Order) (info : Info) : members (info.slots order) = structSysinfo :=
  rfl

variable {order : Order} {answer : Answer} {m : Memory}

theorem load_member {base k offset : Nat} {name : String}
    (ho : (offsets 0 structSysinfo)[k]? = some offset)
    (hname : (structSysinfo[k]?).map Member.name = some name) :
    load (ffiBenchmarkSysinfo order answer base m) (base + offset)
        ((answer.info.values name).flatMap (Scalar.encode order)).length =
      (answer.info.values name).flatMap (Scalar.encode order) := by
  rw [Option.map_eq_some_iff] at hname
  obtain ⟨member, hmember, rfl⟩ := hname
  have hlength := length_values order answer.info member (List.mem_of_getElem? hmember)
  have hslot : (answer.info.slots order)[k]? =
      some ⟨member, (answer.info.values member.name).flatMap (Scalar.encode order), hlength⟩ := by
    rw [Info.slots, List.getElem?_pmap]
    simp only [hmember, Option.pmap_some]
  exact load_blocks _ (mem_blocks ho hslot)

/-- The call writes the struct and nothing else. -/
theorem sysinfo_outside {base x : Nat} (h : x < base ∨ base + sizeofSysinfo ≤ x) :
    ffiBenchmarkSysinfo order answer base m x = m x := by
  have hslots : x < base ∨ base + size (members (answer.info.slots order)) ≤ x := by
    rwa [members_slots]
  rw [ffiBenchmarkSysinfo, blocks_outside hslots, store_outside]
  rwa [List.length_map, List.length_range]

/-! ## What Java builds -/

theorem sysinfoLayoutOf_eq_ok {p q : Nat} {l : StructLayout} (h : sysinfoLayoutOf p q = .ok l) :
    (82 + p) % 8 = 0 ∧ 0 < q ∧ l.byteSize = 102 + p + q := by
  have hloads : sequenceLayout 3 (.value JAVA_LONG) = .ok (.sequence 3 (.value JAVA_LONG) none) :=
    rfl
  rw [sysinfoLayoutOf, hloads, ok_bind] at h
  obtain ⟨padding, hpadding, h⟩ := bind_eq_ok.mp h
  obtain ⟨f, hf, h⟩ := bind_eq_ok.mp h
  obtain ⟨layout, hlayout, h⟩ := bind_eq_ok.mp h
  obtain ⟨-, rfl⟩ := paddingLayout_eq_ok.mp hpadding
  obtain ⟨hq, rfl⟩ := paddingLayout_eq_ok.mp hf
  obtain ⟨hfits, rfl⟩ := structLayout_eq_ok.mp hlayout
  obtain rfl := Except.ok.inj h
  have haligned : (82 + p) % 8 = 0 := by
    simp [Fits] at hfits
    omega
  refine ⟨haligned, Nat.pos_of_ne_zero hq, ?_⟩
  simp [totalSize]
  omega

/-- The paddings of 48 and 32 bits put every named member where C has it. -/
theorem clinit_bits :
    ∃ l, clinit (sysinfoLayoutOf 6 4) = .ok ⟨l, ⟨l, 104, JAVA_INT.withName "mem_unit"⟩⟩ ∧
    l.byteSize = sizeofSysinfo ∧
    ∀ info : Info, ∀ name ∈ named, ∃ k offset : Nat, (offsets 0 structSysinfo)[k]? = some offset ∧
      (structSysinfo[k]?).map Member.name = some name ∧
        l.valuesAt name = .ok (laid offset (info.values name)) := by
  refine ⟨_, rfl, rfl, fun info name hname => ?_⟩
  simp only [named, List.mem_cons, List.not_mem_nil, or_false] at hname
  obtain rfl | rfl | rfl | rfl | rfl | rfl | rfl | rfl | rfl | rfl | rfl | rfl := hname
  · exact ⟨0, 0, by decide, by decide, rfl⟩
  · exact ⟨1, 8, by decide, by decide, rfl⟩
  · exact ⟨2, 32, by decide, by decide, rfl⟩
  · exact ⟨3, 40, by decide, by decide, rfl⟩
  · exact ⟨4, 48, by decide, by decide, rfl⟩
  · exact ⟨5, 56, by decide, by decide, rfl⟩
  · exact ⟨6, 64, by decide, by decide, rfl⟩
  · exact ⟨7, 72, by decide, by decide, rfl⟩
  · exact ⟨8, 80, by decide, by decide, rfl⟩
  · exact ⟨10, 88, by decide, by decide, rfl⟩
  · exact ⟨11, 96, by decide, by decide, rfl⟩
  · exact ⟨12, 104, by decide, by decide, rfl⟩

theorem views_bits (order : Order) (answer : Answer) :
    Views order answer (sysinfoLayoutOf 6 4) := by
  obtain ⟨l, hclinit, hsize, hat⟩ := clinit_bits
  refine ⟨_, hclinit, fun segment m halloc name hname => ?_, hsize, fun segment m x halloc hx => ?_,
    fun segment m halloc => ?_⟩
  · obtain ⟨k, offset, ho, hmember, hvalues⟩ := hat answer.info name hname
    exact StructLayout.get_ok halloc hvalues (load_member ho hmember)
  · rw [halloc.byteSize, hsize] at hx
    exact sysinfo_outside hx
  · have hload : load (ffiBenchmarkSysinfo order answer segment.address.toNat m)
      (segment.address.toNat + 104)
        ((answer.info.values "mem_unit").flatMap (Scalar.encode order)).length = _ :=
      load_member (k := 12) (by decide) (by decide)
    rw [Info.values, List.flatMap_singleton] at hload
    exact VarHandle.get_ok halloc rfl hload

/-- **The layout decodes what C encodes just when the paddings are those of C**,
6 bytes after `procs` and 4 after `mem_unit`: whatever the kernel answers, and
in either byte order. -/
theorem views_iff (order : Order) (answer : Answer) (p q : Nat) :
    Views order answer (sysinfoLayoutOf p q) ↔ p = 6 ∧ q = 4 := by
  constructor
  · rintro ⟨statics, hclinit, hdecodes⟩
    obtain ⟨l, hlayout, hclinit⟩ := bind_eq_ok.mp hclinit
    obtain ⟨handle, -, hclinit⟩ := bind_eq_ok.mp hclinit
    obtain rfl := Except.ok.inj hclinit
    obtain ⟨haligned, hq, hsize⟩ := sysinfoLayoutOf_eq_ok hlayout
    have hsizeof : l.byteSize = 112 := hdecodes.size
    omega
  · rintro ⟨rfl, rfl⟩
    exact views_bits order answer

/-- `memUnitHandle.get(info)` lacks the offset. -/
theorem getMemUnitPanama_eq_error (statics : Statics) (order : Order) (answer : Answer)
    (info : MemorySegment) (m : Memory) :
    getMemUnitPanama statics order answer info m = .error .wrongMethodType := rfl

/-! ## The paddings of the source -/

/-- `totalhigh` would stand at 130. -/
theorem clinit_eq_error :
    clinit sysinfoLayout =
      .error (.illegalArgument "Invalid alignment constraint for member layout") := rfl

/-- **There is no view of any answer**: with the paddings of the source, the
layout is not built and the class is not initialized. -/
theorem not_views (order : Order) (answer : Answer) :
    (∃ message, clinit sysinfoLayout = .error (.illegalArgument message)) ∧
      ¬ Views order answer sysinfoLayout := by
  refine ⟨⟨_, clinit_eq_error⟩, ?_⟩
  rw [sysinfoLayout, views_iff]
  decide

/-- A machine that has been up for a minute and counts memory in bytes. -/
theorem not_views_minute : ¬ ∀ order answer, Views order answer sysinfoLayout := by
  intro hviews
  let info : Info := ⟨60, fun _ => 0, 0, 0, 0, 0, 0, 0, 1, 0, 0, 0, 1⟩
  obtain ⟨statics, hclinit, -⟩ := hviews .little ⟨info, fun _ => 0⟩
  rw [clinit_eq_error] at hclinit
  cases hclinit

end FfiBenchmark.Sysinfo
