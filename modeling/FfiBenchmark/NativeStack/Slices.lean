/-
No live slice is handed out twice.

`Tracked` is a stack with the slices that are still live: from the `allocate`
that returned a slice until a `close` lowers `frameIndex` below the value it
had then. Whatever happens to the stack, its fields and its live slices are
those of a last-in first-out region over `[0, byteSize]` (`Refines`), and in
such a region no two live blocks overlap (`Lifo.Region.disjoint`).
-/
import FfiBenchmark.NativeStack.Calls
import FfiBenchmark.Lib.Lifo

namespace FfiBenchmark.NativeStack

open Lifo

variable {Thread : Type}

/-- A slice, with the alignment asked for and the `frameIndex` it was allocated at. -/
structure Slice where
  segment : MemorySegment
  alignment : Long
  depth : Nat

/-- Where a slice starts, relative to the segment at `address`. -/
def Slice.start (b : Slice) (address : Long) : Nat := (b.segment.address - address).toNat

/-- The bytes of a slice, relative to the segment at `address`. -/
def Slice.bytes (b : Slice) (address : Long) : Set Nat :=
  Set.Ico (b.start address) (b.start address + b.segment.byteSize.toNat)

def Slice.block (address : Long) (b : Slice) : Block Nat where
  lo := b.start address
  hi := b.start address + b.segment.byteSize.toNat
  depth := b.depth

/-- A stack and its live slices, newest first. -/
structure Tracked (Thread : Type) where
  stack : NativeStack Thread
  live : List Slice

namespace Tracked

def new (t : Thread) (segment : MemorySegment) (shared : Bool) : Tracked Thread :=
  ⟨NativeStack.new t segment shared, []⟩

/-- The live slices after a call on `s` that ended in `r`. -/
def liveAfter (s : NativeStack Thread) (live : List Slice) :
    Call → EStateM.Result Exn (NativeStack Thread) Value → List Slice
  | .allocate _ byteAlignment, .ok (.slice segment) _ =>
    ⟨segment, byteAlignment, s.frameIndex⟩ :: live
  | .close, .ok _ s' => live.filter (·.depth ≤ s'.frameIndex)
  | _, _ => live

variable [DecidableEq Thread]

def step (x : Tracked Thread) (e : Event Thread) : Tracked Thread where
  stack := e.apply x.stack
  live := match e with
    | .call t c => liveAfter x.stack x.live c (exec t c x.stack)
    | .handOver _ => x.live

def run (x : Tracked Thread) (history : List (Event Thread)) : Tracked Thread :=
  history.foldl step x

/-- Tracking the slices does not change the stack. -/
theorem run_stack (x : Tracked Thread) (history : List (Event Thread)) :
    (x.run history).stack = x.stack.after history := by
  induction history generalizing x with
  | nil => rfl
  | cons e history ih => exact ih (x.step e)

end Tracked

/-- The fields and live slices of `x`, over `segment`, are those of the region `r`. -/
structure Refines (segment : MemorySegment) (x : Tracked Thread)
    (r : Region Nat 0 segment.byteSize.toNat) : Prop where
  wf : x.stack.Wf
  segment_eq : x.stack.segment = segment
  top : r.top = x.stack.offset.toNat
  marks : r.marks = x.stack.marks.map BitVec.toNat
  live : r.live = x.live.map (Slice.block segment.address)
  aligned : ∀ b ∈ x.live, b.alignment.toNat ∣ b.segment.address.toNat

namespace Refines

variable {segment : MemorySegment} {x : Tracked Thread} {r : Region Nat 0 segment.byteSize.toNat}

theorem new (t : Thread) (segment : MemorySegment) (shared : Bool) :
    Refines segment (Tracked.new t segment shared) (Region.init (Nat.zero_le _)) where
  wf := wf_new t segment shared
  segment_eq := rfl
  top := rfl
  marks := rfl
  live := rfl
  aligned := by simp [Tracked.new]

/-- A call does to the region what its effect says: nothing, `push`, `pop` or `alloc`. -/
theorem effect (h : Refines segment x r) {t : Thread} {c : Call}
    {res : EStateM.Result Exn (NativeStack Thread) Value} (he : Effect t x.stack c res) :
    ∃ r', Refines segment ⟨Method.fields res, Tracked.liveAfter x.stack x.live c res⟩ r' := by
  have hwf := h.wf.effect he
  cases he with
  | threw e =>
    have hlive : Tracked.liveAfter x.stack x.live c (.error e x.stack) = x.live := by
      cases c <;> rfl
    exact ⟨r, hwf, h.segment_eq, h.top, h.marks, by rw [hlive, h.live],
      by rw [hlive]; exact h.aligned⟩
  | pushed how room =>
    refine ⟨r.push, hwf, h.segment_eq, h.top, ?_, h.live, h.aligned⟩
    change r.marks ++ [r.top] = _
    rw [Method.fields_ok, h.wf.marks_pushed, List.map_append, h.marks, h.top]
    rfl
  | @closed ms mark how hm =>
    have hindex := h.wf.frameIndex_eq hm
    have hmarks : r.marks = ms.map BitVec.toNat ++ [mark.toNat] := by
      rw [h.marks, hm, List.map_append]
      rfl
    refine ⟨r.pop (ms.map BitVec.toNat) mark.toNat hmarks, hwf, h.segment_eq, rfl, ?_, ?_, ?_⟩
    · rw [Method.fields_ok, h.wf.marks_closedAt hm]
      rfl
    · change r.live.filter _ = (x.live.filter _).map _
      rw [h.live, List.filter_map, List.length_map, closedAt_frameIndex, hindex, Nat.add_sub_cancel]
      rfl
    · exact fun b hb => h.aligned b (List.mem_of_mem_filter hb)
  | @allocated byteSize byteAlignment m slice offset how fit aligned placed =>
    obtain ⟨hlo, hhi, hcap⟩ := placed.bounds fit
    have hseg := h.segment_eq
    rw [hseg] at hlo hhi hcap
    refine ⟨r.alloc (slice.address - segment.address).toNat offset.toNat (by rw [h.top]; exact hlo)
      (by omega) hcap, hwf, hseg, rfl, h.marks, ?_, ?_⟩
    · change (⟨_, _, r.marks.length⟩ :: r.live : List (Block Nat)) =
        Slice.block segment.address _ :: _
      rw [h.live, h.marks, List.length_map, h.wf.length_marks, ← hhi]
      rfl
    · intro b hb
      rcases List.mem_cons.mp hb with rfl | hb
      · exact aligned
      · exact h.aligned b hb

variable [DecidableEq Thread]

theorem step (h : Refines segment x r) (e : Event Thread) :
    ∃ r', Refines segment (x.step e) r' := by
  cases e with
  | call t c => exact h.effect (exec_effect h.wf t c)
  | handOver t =>
    refine ⟨r, h.wf.apply (.handOver t), ?_, ?_, ?_, h.live, h.aligned⟩ <;>
      simp only [Tracked.step, Event.apply] <;> split
    · exact h.segment_eq
    · exact h.segment_eq
    · exact h.top
    · exact h.top
    · exact h.marks
    · exact h.marks

theorem run (h : Refines segment x r) (history : List (Event Thread)) :
    ∃ r', Refines segment (x.run history) r' := by
  induction history generalizing x r with
  | nil => exact ⟨r, h⟩
  | cons e history ih =>
    obtain ⟨r', h'⟩ := h.step e
    exact ih h'

omit [DecidableEq Thread] in
/-- The saved offsets are sorted, below the offset, in the segment. -/
theorem sorted (h : Refines segment x r) :
    (0 :: (x.stack.marks ++ [x.stack.offset]).map BitVec.toInt ++
      [segment.byteSize.toInt]).Pairwise (· ≤ ·) := by
  have hle : ∀ m ∈ x.stack.marks ++ [x.stack.offset], m.toNat ≤ segment.byteSize.toNat := by
    intro m hm
    rw [← h.segment_eq]
    rcases List.mem_append.mp hm with hm | hm
    · exact h.wf.marks_le m hm
    · exact List.mem_singleton.mp hm ▸ h.wf.offset_le
  have hint : ∀ m ∈ x.stack.marks ++ [x.stack.offset], m.toInt = (m.toNat : Int) := by
    intro m hm
    have := hle m hm
    have := segment.byteSize_lt
    exact BitVec.toInt_eq_toNat_of_lt (by omega)
  have hsorted := r.levels_sorted
  rw [h.marks, h.top, ← List.map_singleton, ← List.map_append, List.pairwise_map] at hsorted
  rw [List.map_congr_left hint, List.cons_append, List.pairwise_cons, List.pairwise_append,
    List.pairwise_map]
  refine ⟨?_, hsorted.imp Int.ofNat_le.mpr, by simp, ?_⟩
  · intro a ha
    simp only [List.mem_append, List.mem_map, List.mem_singleton] at ha
    rcases ha with ⟨m, -, rfl⟩ | rfl
    · omega
    · exact segment.byteSize_nonneg
  · intro a ha b hb
    obtain rfl := List.mem_singleton.mp hb
    obtain ⟨m, hm, rfl⟩ := List.mem_map.mp ha
    have := hle m hm
    rw [segment.byteSize_toInt]
    omega

end Refines

variable [DecidableEq Thread]

/-- **No live slice is handed out twice.** After any history of calls by any
threads and of handovers, every live slice lies inside the segment at an
address of the alignment it was asked for, no two of them share a byte, and
`0 ≤ frames[0] ≤ … ≤ frames[frameIndex - 1] ≤ offset ≤ byteSize` with
`frameIndex` inside `frames`. -/
theorem live_slices_disjoint (t : Thread) (segment : MemorySegment) (shared : Bool)
    (history : List (Event Thread)) :
    let x := (Tracked.new t segment shared).run history
    x.stack = (new t segment shared).after history ∧
    (∀ b ∈ x.live, b.start segment.address + b.segment.byteSize.toNat ≤ segment.byteSize.toNat ∧
      b.alignment.toNat ∣ b.segment.address.toNat) ∧
    (x.live.Pairwise fun b c => Disjoint (b.bytes segment.address) (c.bytes segment.address)) ∧
    (0 :: (x.stack.frames.take x.stack.frameIndex ++ [x.stack.offset]).map BitVec.toInt ++
      [segment.byteSize.toInt]).Pairwise (· ≤ ·) ∧
    x.stack.frameIndex ≤ x.stack.frames.length := by
  obtain ⟨r, h⟩ := (Refines.new t segment shared).run history
  refine ⟨Tracked.run_stack _ _, fun b hb => ⟨?_, h.aligned b hb⟩, ?_, h.sorted, h.wf.index_le⟩
  · have hmem : b.block segment.address ∈ r.live := by
      rw [h.live]
      exact List.mem_map_of_mem hb
    exact (r.within hmem).2.2
  · have hdisj := r.disjoint
    rwa [h.live, List.pairwise_map] at hdisj

end FfiBenchmark.NativeStack
