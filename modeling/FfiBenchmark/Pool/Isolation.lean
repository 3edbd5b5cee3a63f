/-
What is stored through a slice stays there.

All stacks of a run, and the memory behind them: any code may store through a
slice that is still live, from the `allocate` that returned it to the `close` of
the frame it was allocated in. Threads get, use and give up stacks as they like;
what a live slice holds is what was stored through it, and nothing else.

In the service each stack is a last-in first-out region (`Lifo.Region`), so its
live slices do not overlap (`Backed`). The VM gives no stack memory that another
one has; that is a condition of the steps of `World`.
-/
import FfiBenchmark.Lib.Bytes
import FfiBenchmark.Lib.Lifo
import FfiBenchmark.Pool.Steps

namespace FfiBenchmark.Pool

open NativeStack (Call Value)

variable {Thread : Type}

/-- A live slice: the stack it is of, the `frameIndex` it was allocated at, and
what it held then and was stored through it since. -/
structure Lent where
  stack : Nat
  segment : MemorySegment
  depth : Nat
  contents : List UInt8

namespace Lent

def bytes (g : Lent) : Set Nat :=
  Set.Ico g.segment.address.toNat (g.segment.address.toNat + g.segment.byteSize.toNat)

/-- Where the slice starts in the stack at `base`. -/
def start (base : Nat) (g : Lent) : Nat := (g.segment.address.toNat + 2 ^ 64 - base) % 2 ^ 64

/-- The slice but for what it holds. -/
def lease (g : Lent) : Nat × MemorySegment × Nat := (g.stack, g.segment, g.depth)

theorem lease_set {slices : List Lent} {i : Nat} {g g' : Lent} (hg : slices[i]? = some g)
    (hlease : g'.lease = g.lease) :
    (slices.set i g').map lease = slices.map lease := by
  rw [List.map_set, hlease]
  exact Table.set_same (by rw [List.getElem?_map, hg]; rfl)

def block (base : Nat) (g : Lent) : Lifo.Block Nat :=
  ⟨g.start base, g.start base + g.segment.byteSize.toNat, g.depth⟩

end Lent

/-- The threads with their stacks, memory, and the live slices, newest first. -/
structure World (Thread : Type) where
  state : State Thread
  memory : Bytes.Memory
  slices : List Lent

namespace World

inductive Label (Thread : Type) where
  | run (l : Pool.Label Thread)
  /-- Someone stores through a live slice. -/
  | store (slice offset : Nat) (bytes : List UInt8)

def init (Thread : Type) (memory : Bytes.Memory) : World Thread where
  state := .init Thread
  memory := memory
  slices := []

end World

/-- No two stacks have memory in common. -/
def Apart (objects : List (NativeStack Thread)) : Prop :=
  objects.Pairwise fun x y =>
    x.segment.address.toNat + x.segment.byteSize.toNat ≤ y.segment.address.toNat ∨
      y.segment.address.toNat + y.segment.byteSize.toNat ≤ x.segment.address.toNat

instance (objects : List (NativeStack Thread)) : Decidable (Apart objects) :=
  inferInstanceAs (Decidable (objects.Pairwise _))

/-- The number of frames of the stack `r`. -/
def State.depth (s : State Thread) (r : Nat) : Nat := (s.objects[r]?).elim 0 (·.frameIndex)

/-- The live slices after a call, which left stacks of that many frames. -/
def slicesAfter (depth : Nat → Nat) (memory : Bytes.Memory) (slices : List Lent)
    (e : Event Thread) : List Lent :=
  match e.request, e.outcome with
  | .call r (.allocate _ _), .returned (.slice segment) =>
    ⟨r, segment, depth r, Bytes.load memory segment.address.toNat segment.byteSize.toNat⟩ :: slices
  | .call r .close, .returned _ => slices.filter fun g => g.stack ≠ r ∨ g.depth ≤ depth r
  | _, _ => slices

/-! ## The regions -/

/-- The live slices of the stack `r` are those of a last-in first-out region. -/
structure Backs (cfg : Config Thread) (slices : List Lent) (r : Nat) (sheet : Sheet) : Prop where
  size : sheet.size = cfg.stackSize.toNat
  in_range : sheet.base + sheet.size ≤ 2 ^ 64
  region : ∃ region : Lifo.Region Nat 0 sheet.size, region.top = sheet.offset ∧
    region.marks = sheet.marks ∧
    region.live = (slices.filter (·.stack = r)).map (Lent.block sheet.base)
  placed : ∀ g ∈ slices, g.stack = r → 0 < g.segment.byteSize.toNat →
    g.segment.address.toNat = sheet.base + g.start sheet.base

structure Backed (cfg : Config Thread) (slices : List Lent) (a : Service Thread) : Prop where
  backs : ∀ (r : Nat) sheet, a.sheets[r]? = some sheet → Backs cfg slices r sheet
  known : ∀ g ∈ slices, g.stack < a.sheets.length

section Regions

variable {cfg : Config Thread} {slices slices' : List Lent} {r : Nat} {sheet sheet' : Sheet}
  {a a' : Service Thread} {e : Event Thread} {memory : Bytes.Memory} {depth : Nat → Nat}

/-- Other slices of the stack are none of its business. -/
theorem Backs.congr (h : Backs cfg slices r sheet)
    (hslices : slices'.filter (·.stack = r) = slices.filter (·.stack = r)) :
    Backs cfg slices' r sheet := by
  obtain ⟨region, htop, hmarks, hlive⟩ := h.region
  refine ⟨h.size, h.in_range, ⟨region, htop, hmarks, by rw [hslices, hlive]⟩,
    fun g hg hr => h.placed g ?_ hr⟩
  have hmem : g ∈ slices'.filter (·.stack = r) := List.mem_filter.mpr ⟨hg, decide_eq_true hr⟩
  rw [hslices] at hmem
  exact (List.mem_filter.mp hmem).1

theorem Backs.pushed (h : Backs cfg slices r sheet) :
    Backs cfg slices r { sheet with marks := sheet.marks ++ [sheet.offset] } := by
  obtain ⟨region, htop, hmarks, hlive⟩ := h.region
  exact ⟨h.size, h.in_range, ⟨region.push, htop, by rw [← hmarks, ← htop]; rfl, hlive⟩, h.placed⟩

/-- An `allocate` hands out a block above the top. -/
theorem Backs.allocated (h : Backs cfg slices r sheet) {byteSize byteAlignment : Long} {start : Nat}
    {slice : MemorySegment} {contents : List UInt8} (hfit : sheet.Fits byteSize byteAlignment start)
    (haddress : slice.address.toNat = start % 2 ^ 64) (hsize : slice.byteSize = byteSize) :
    Backs cfg (⟨r, slice, sheet.marks.length, contents⟩ :: slices) r
      { sheet with offset := start - sheet.base + byteSize.toNat } := by
  obtain ⟨region, htop, hmarks, hlive⟩ := h.region
  have hge : sheet.base + sheet.offset ≤ start := hfit.least.1.2
  have hroom := hfit.room
  have hrange := h.in_range
  have hcap : sheet.size < 2 ^ 63 := by
    rw [h.size]
    have := BitVec.toInt_pos_iff.mp cfg.stackSize_nonneg
    omega
  have hstart : (slice.address.toNat + 2 ^ 64 - sheet.base) % 2 ^ 64 = start - sheet.base := by
    rw [haddress]
    omega
  refine ⟨h.size, h.in_range,
    ⟨region.alloc (start - sheet.base) (start - sheet.base + byteSize.toNat) ?_ (by omega) ?_, rfl,
      hmarks, ?_⟩, ?_⟩
  · rw [htop]
    omega
  · omega
  · have hself : (⟨r, slice, sheet.marks.length, contents⟩ : Lent).block sheet.base =
        ⟨start - sheet.base, start - sheet.base + byteSize.toNat, region.marks.length⟩ := by
      rw [Lent.block, Lent.start, hstart, hsize, hmarks]
    rw [List.filter_cons_of_pos (by simp), List.map_cons, hself, ← hlive]
    rfl
  · intro g hg hr hpos
    rcases List.mem_cons.mp hg with rfl | hg
    · rw [Lent.start, hstart]
      simp only at hpos ⊢
      rw [hsize] at hpos
      omega
    · exact h.placed g hg hr hpos

/-- A `close` gives up the blocks of its frame. -/
theorem Backs.closed (h : Backs cfg slices r sheet) {ms : List Nat} {mark : Nat}
    (hcons : sheet.marks = ms ++ [mark]) :
    Backs cfg (slices.filter fun g => g.stack ≠ r ∨ g.depth ≤ ms.length) r
      { sheet with offset := mark, marks := ms } := by
  obtain ⟨region, htop, hmarks, hlive⟩ := h.region
  refine ⟨h.size, h.in_range, ⟨region.pop ms mark (hmarks.trans hcons), rfl, rfl, ?_⟩,
    fun g hg => h.placed g (List.mem_of_mem_filter hg)⟩
  change region.live.filter _ = _
  rw [hlive, List.filter_map, List.filter_filter, List.filter_filter]
  congr 1
  refine List.filter_congr fun g _ => ?_
  by_cases hr : g.stack = r
  · simp only [hr, decide_true, Bool.true_and, ne_eq, not_true, false_or, Bool.and_true]
    rfl
  · simp [hr]

/-- What the slices hold does not matter. -/
theorem Backed.congr (h : Backed cfg slices a)
    (hlease : slices'.map Lent.lease = slices.map Lent.lease) :
    Backed cfg slices' a := by
  have hmem : ∀ g' ∈ slices', ∃ g ∈ slices, g.lease = g'.lease := by
    intro g' hg'
    have := List.mem_map_of_mem (f := Lent.lease) hg'
    rwa [hlease, List.mem_map] at this
  have hblocks : ∀ (l : List Lent) (r base : Nat), (l.filter (·.stack = r)).map (Lent.block base) =
      ((l.map Lent.lease).filter (·.1 = r)).map fun k =>
        (⟨k.1, k.2.1, k.2.2, []⟩ : Lent).block base := by
    intro l r base
    rw [List.filter_map, List.map_map]
    rfl
  refine ⟨fun r sheet hx => ?_, fun g' hg' => ?_⟩
  · obtain ⟨hsize, hrange, ⟨region, htop, hmarks, hlive⟩, hplaced⟩ := h.backs r sheet hx
    refine ⟨hsize, hrange, ⟨region, htop, hmarks, by rw [hlive, hblocks, hblocks, hlease]⟩,
      fun g' hg' hr hpos => ?_⟩
    obtain ⟨g, hg, heq⟩ := hmem g' hg'
    simp only [Lent.lease, Prod.mk.injEq] at heq
    obtain ⟨hstack, hsegment, -⟩ := heq
    have := hplaced g hg (hstack.trans hr) (by rw [hsegment]; exact hpos)
    rwa [Lent.start, hsegment] at this
  · obtain ⟨g, hg, heq⟩ := hmem g' hg'
    simp only [Lent.lease, Prod.mk.injEq] at heq
    rw [← heq.1]
    exact h.known g hg

/-- A call on one stack leaves the others to their slices. -/
theorem Backed.update (h : Backed cfg slices a) (hsheet : a.sheets[r]? = some sheet)
    (hbacks : Backs cfg slices' r sheet')
    (hother : ∀ r', r' ≠ r → slices'.filter (·.stack = r') = slices.filter (·.stack = r'))
    (hsheets : a'.sheets = a.sheets.set r sheet')
    (hknown : ∀ g ∈ slices', g.stack = r ∨ g ∈ slices) :
    Backed cfg slices' a' := by
  have hlt := (List.getElem?_eq_some_iff.mp hsheet).1
  refine ⟨fun r' sheet'' hx => ?_, fun g hg => ?_⟩
  · rw [hsheets] at hx
    rcases Table.set_cases hx with ⟨rfl, rfl⟩ | ⟨hne, hx⟩
    · exact hbacks
    · exact (h.backs r' sheet'' hx).congr (hother r' hne)
  · rw [hsheets, List.length_set]
    rcases hknown g hg with rfl | hg
    · exact hlt
    · exact h.known g hg

theorem filter_closed {r' n : Nat} (hr' : r' ≠ r) :
    (slices.filter fun g => g.stack ≠ r ∨ g.depth ≤ n).filter (·.stack = r') =
      slices.filter (·.stack = r') := by
  rw [List.filter_filter]
  refine List.filter_congr fun g _ => ?_
  by_cases hg : g.stack = r'
  · simp [hg, hr']
  · simp [hg]

variable [DecidableEq Thread]

/-- Calls of the service keep its stacks to their slices. -/
theorem Backed.step (h : Backed cfg slices a) (hn : Service.Next cfg a e a')
    (hdepth : ∀ r c v sheet', e.request = .call r c → e.outcome = .returned v →
      a'.sheets[r]? = some sheet' → depth r = sheet'.marks.length) :
    Backed cfg (slicesAfter depth memory slices e) a' := by
  cases hn with
  | again hb | exhausted hb hfree | recycled hb hv hfree =>
    rename_i thenPush
    exact ⟨h.backs, h.known⟩
  | exited => exact ⟨h.backs, h.known⟩
  | @foreign t r c hlt hb => cases c <;> exact h
  | @fresh t base thenPush hb hfree hrange =>
    have hnone : slices.filter (·.stack = a.sheets.length) = [] :=
      List.filter_eq_nil_iff.mpr fun g hg hr => Nat.ne_of_lt (h.known g hg) (of_decide_eq_true hr)
    refine ⟨fun r sheet hx => ?_, fun g hg => ?_⟩
    · rcases Table.concat_cases hx with hx | ⟨rfl, rfl⟩
      · exact h.backs r sheet hx
      · refine ⟨rfl, hrange, ⟨.init (Nat.zero_le _), rfl, rfl, ?_⟩, fun g hg hr => ?_⟩
        · change [] = (slices.filter _).map _
          rw [hnone, List.map_nil]
        · exact absurd hr (Nat.ne_of_lt (h.known g hg))
    · exact Nat.lt_of_lt_of_le (h.known g hg) (by simp)
  | @called t r c out sheet sheet' hb hsheet hdoes =>
    have hbacks := h.backs r sheet hsheet
    have hlt := (List.getElem?_eq_some_iff.mp hsheet).1
    have hsame : Backed cfg slices { a with sheets := a.sheets.set r sheet } :=
      h.update hsheet hbacks (fun _ _ => rfl) rfl fun _ hg => .inr hg
    cases hdoes with
    | pushed => exact h.update hsheet hbacks.pushed (fun _ _ => rfl) rfl fun _ hg => .inr hg
    | full hfull hheap he | refused hno he | empty hmarks => exact hsame
    | allocated hfit haddress hsize =>
      have hframes := hdepth r _ _ _ rfl rfl (List.getElem?_set_self hlt)
      simp only [slicesAfter, hframes]
      refine h.update hsheet (hbacks.allocated hfit haddress hsize) (fun r' hr' => ?_) rfl
        fun g hg => ?_
      · exact List.filter_cons_of_neg (by simpa using Ne.symm hr')
      · exact (List.mem_cons.mp hg).imp (fun heq => by rw [heq]) id
    | closed hcons hkeep =>
      have hframes := hdepth r _ _ _ rfl rfl (List.getElem?_set_self hlt)
      simp only [slicesAfter, hframes]
      exact h.update hsheet (hbacks.closed hcons) (fun r' hr' => filter_closed hr') rfl
        fun g hg => .inr (List.mem_of_mem_filter hg)
  | @released t r sheet mark hb hsheet hshared hmarks =>
    have hlt := (List.getElem?_eq_some_iff.mp hsheet).1
    have hframes := hdepth r _ _ _ rfl rfl (List.getElem?_set_self hlt)
    have hcons : sheet.marks = [] ++ [mark] := hmarks
    simp only [slicesAfter, hframes]
    exact h.update hsheet ((h.backs r sheet hsheet).closed hcons) (fun r' hr' => filter_closed hr')
      rfl
      fun g hg => .inr (List.mem_of_mem_filter hg)

/-! ### The bytes of live slices -/

omit [DecidableEq Thread] in
/-- A byte of a slice is a byte of its block. -/
theorem Backs.mem_bytes {g : Lent} {x : Nat} (h : Backs cfg slices r sheet) (hg : g ∈ slices)
    (hr : g.stack = r) (hx : x ∈ g.bytes) :
    sheet.base ≤ x ∧ x - sheet.base ∈ Set.Ico (g.block sheet.base).lo (g.block sheet.base).hi := by
  obtain ⟨hlo, hhi⟩ := hx
  have haddress := h.placed g hg hr (by omega)
  exact ⟨by omega, by simp only [Lent.block]; omega, by simp only [Lent.block]; omega⟩

omit [DecidableEq Thread] in
/-- A byte of a slice is a byte of its stack. -/
theorem Backs.bytes_within {g : Lent} {x : Nat} (h : Backs cfg slices r sheet) (hg : g ∈ slices)
    (hr : g.stack = r) (hx : x ∈ g.bytes) :
    sheet.base ≤ x ∧ x < sheet.base + sheet.size := by
  obtain ⟨hle, hmem⟩ := h.mem_bytes hg hr hx
  obtain ⟨region, -, -, hlive⟩ := h.region
  have hlives : g.block sheet.base ∈ region.live := by
    rw [hlive]
    exact List.mem_map_of_mem (List.mem_filter.mpr ⟨hg, decide_eq_true hr⟩)
  have hhi := (region.within hlives).2.2
  have := hmem.2
  omega

omit [DecidableEq Thread] in
/-- **Live slices have no byte in common.** -/
theorem Backed.disjoint (h : Backed cfg slices a)
    (hapart : ∀ (r r' : Nat) sheet sheet', r ≠ r' → a.sheets[r]? = some sheet →
      a.sheets[r']? = some sheet' →
        sheet.base + sheet.size ≤ sheet'.base ∨ sheet'.base + sheet'.size ≤ sheet.base) :
    slices.Pairwise fun g g' => Disjoint g.bytes g'.bytes := by
  have hsheet : ∀ g ∈ slices, ∃ sheet, a.sheets[g.stack]? = some sheet :=
    fun g hg => ⟨_, List.getElem?_eq_getElem (h.known g hg)⟩
  refine Table.pairwise_of_filter (f := Lent.stack) (fun r => ?_) fun g hg g' hg' hne => ?_
  · by_cases hlt : r < a.sheets.length
    · have hbacks := h.backs r _ (List.getElem?_eq_getElem hlt)
      obtain ⟨region, -, -, hlive⟩ := hbacks.region
      have hdisjoint := region.disjoint
      rw [hlive, List.pairwise_map] at hdisjoint
      refine hdisjoint.imp_of_mem fun {g g'} hg hg' hgg' => Set.disjoint_left.mpr fun x hx hx' => ?_
      obtain ⟨hg, hr⟩ := List.mem_filter.mp hg
      obtain ⟨hg', hr'⟩ := List.mem_filter.mp hg'
      exact Set.disjoint_left.mp hgg' (hbacks.mem_bytes hg (of_decide_eq_true hr) hx).2
        (hbacks.mem_bytes hg' (of_decide_eq_true hr') hx').2
    · have hnone : slices.filter (·.stack = r) = [] := by
        refine List.filter_eq_nil_iff.mpr fun g hg hr => hlt ?_
        rw [← of_decide_eq_true hr]
        exact h.known g hg
      rw [hnone]
      exact .nil
  · obtain ⟨sheet, hx⟩ := hsheet g hg
    obtain ⟨sheet', hx'⟩ := hsheet g' hg'
    have hcases := hapart _ _ sheet sheet' hne hx hx'
    refine Set.disjoint_left.mpr fun x hin hin' => ?_
    have hwithin := (h.backs _ sheet hx).bytes_within hg rfl hin
    have hwithin' := (h.backs _ sheet' hx').bytes_within hg' rfl hin'
    omega

end Regions

/-! ## The world -/

variable [DecidableEq Thread]

namespace World

/-- The VM gives no memory that is in use. -/
def step (cfg : Config Thread) (w : World Thread) :
    Label Thread → Option (Option Outcome × World Thread)
  | .run l =>
    match w.state.step cfg l with
    | none => none
    | some (out, s') =>
      if Apart s'.objects then some (some out, {
        state := s'
        memory := w.memory
        slices := (commit cfg ⟨w.state, l, out⟩).elim w.slices
          (slicesAfter s'.depth w.memory w.slices) })
      else none
  | .store i offset bytes =>
    match w.slices[i]? with
    | none => none
    | some g =>
      if offset + bytes.length ≤ g.segment.byteSize.toNat then some (none, {
        state := w.state
        memory := Bytes.store w.memory (g.segment.address.toNat + offset) bytes
        slices := w.slices.set i { g with contents := Bytes.splice g.contents offset bytes } })
      else none

end World

section Worlds

variable {cfg : Config Thread} {s s' : State Thread} {place : Nat → Place Thread} {t : Thread}
  {act : Act} {out : Outcome} {l : Label Thread} {a a' : Service Thread} {e : Event Thread}
  {r : Nat} {c : Call} {v : Value} {sheet' : Sheet} {w w' : World Thread}

/-- The stack a thread holds is in its hands. -/
theorem Serves.holder (h : Serves s a) (hc : Custody cfg s place) (hb : a.holds t = some r) :
    (place r).holder = some t := by
  rw [h.holds, State.held, Option.or_eq_some_iff] at hb
  rcases hb with hb | ⟨-, hin⟩
  · rw [hc.at_place (.bound hb)]
    rfl
  · obtain ⟨⟨r', owned⟩, htransit, rfl⟩ := Option.map_eq_some_iff.mp hin
    rw [hc.at_place (.transit htransit)]
    rfl

theorem commit_outcome (h : commit cfg ⟨s, .thread t act, out⟩ = some e)
    (hreq : e.request = .call r c) :
    e.outcome = out := by
  unfold commit at h
  simp only at h
  split at h <;> grind [Option.map_eq_some_iff]

/-- After a call on a stack, no method has it in hand. -/
theorem Serves.depth (h : Serves s a) (hc : Custody cfg s place)
    (hs : s.step cfg l = some (out, s')) (hcommit : commit cfg ⟨s, l, out⟩ = some e)
    (hn : Service.Next cfg a e a') (hh' : Histories cfg s') (h' : Serves s' a')
    (hreq : e.request = .call r c) (hout : e.outcome = .returned v)
    (hsheet : a'.sheets[r]? = some sheet') :
    s'.depth r = sheet'.marks.length := by
  rcases step_cases hs with ⟨t, act, rfl, -, -, hm⟩ | ⟨i, c, rfl, -⟩
  · have hholds : a.holds e.thread = some r := by
      cases hn <;> cases hreq <;> first | assumption | cases hout
    have hend : out ≠ .running := by
      rw [← commit_outcome hcommit hreq, hout]
      simp
    have hidle : s'.running.pc t = .idle := by
      rcases rank_moves hm with ⟨hrun, -⟩ | ⟨-, hidle⟩
      · exact absurd hrun hend
      · exact hidle
    have halone := hc.alone (.inl (h.holder hc hholds))
    rw [commit_thread hcommit] at halone
    have hnone : ∀ t', (s'.running.pc t').stack ≠ some r := by
      intro t'
      by_cases ht : t' = t
      · rw [ht, hidle]
        simp [Pc.stack]
      · rw [pc_moves hm ht]
        exact halone t' ht
    have hlt := (List.getElem?_eq_some_iff.mp hsheet).1
    rw [h'.length] at hlt
    have hx := List.getElem?_eq_getElem hlt
    rw [State.depth, hx, Option.elim_some, ← (hh'.trail r _ hx).wf.length_sheet,
      (h'.stage r _ sheet' hx hsheet).2 hnone]
  · cases hcommit

omit [DecidableEq Thread] in
theorem contents_after {memory : Bytes.Memory} {depth : Nat → Nat} {slices : List Lent}
    (h : ∀ g ∈ slices,
      Bytes.load memory g.segment.address.toNat g.segment.byteSize.toNat = g.contents) :
    ∀ g ∈ slicesAfter depth memory slices e,
      Bytes.load memory g.segment.address.toNat g.segment.byteSize.toNat = g.contents := by
  unfold slicesAfter
  split
  · intro g hg
    rcases List.mem_cons.mp hg with rfl | hg
    · rfl
    · exact h g hg
  · exact fun g hg => h g (List.mem_of_mem_filter hg)
  · exact h

/-- What holds in every world a run leads to. -/
structure Isolated (cfg : Config Thread) (w : World Thread) (a : Service Thread) : Prop where
  custody : ∃ place, Custody cfg w.state place
  histories : Histories cfg w.state
  serves : Serves w.state a
  backed : Backed cfg w.slices a
  apart : Apart w.state.objects
  contents : ∀ g ∈ w.slices,
    Bytes.load w.memory g.segment.address.toNat g.segment.byteSize.toNat = g.contents

theorem Stage.range {pc : Pc} {before now : Sheet} (h : Stage pc before now) :
    now.base = before.base ∧ now.size = before.size := by
  cases pc with
  | dropping | returning =>
    obtain ⟨ms, mark, -, -, rfl⟩ := h
    exact ⟨rfl, rfl⟩
  | unsetting | disowning | caching =>
    obtain ⟨mark, -, -, rfl⟩ := h
    exact ⟨rfl, rfl⟩
  | _ =>
    obtain rfl : now = before := h
    exact ⟨rfl, rfl⟩

/-- A stack has the memory of its segment in the service. -/
theorem Serves.range (h : Serves s a) {x : NativeStack Thread} {sheet : Sheet}
    (hx : s.objects[r]? = some x) (hsheet : a.sheets[r]? = some sheet) :
    sheet.base = x.segment.address.toNat ∧ sheet.size = x.segment.byteSize.toNat := by
  obtain ⟨hin, hout⟩ := h.stage r x sheet hx hsheet
  by_cases hr : ∃ t, (s.running.pc t).stack = some r
  · obtain ⟨t, ht⟩ := hr
    obtain ⟨hbase, hsize⟩ := (hin t ht).range
    exact ⟨hbase.symm, hsize.symm⟩
  · obtain rfl := hout fun t ht => hr ⟨t, ht⟩
    exact ⟨rfl, rfl⟩

namespace Isolated

theorem init (cfg : Config Thread) (memory : Bytes.Memory) :
    Isolated cfg (World.init Thread memory) (Service.init Thread) where
  custody := ⟨_, .init cfg⟩
  histories := .init cfg
  serves := .init
  backed := ⟨by simp [Service.init], by simp [World.init]⟩
  apart := .nil
  contents := by simp [World.init]

theorem disjoint (h : Isolated cfg w a) :
    w.slices.Pairwise fun g g' => Disjoint g.bytes g'.bytes := by
  have hobject : ∀ {r sheet}, a.sheets[r]? = some sheet → ∃ hlt : r < w.state.objects.length,
      sheet.base = w.state.objects[r].segment.address.toNat ∧
      sheet.size = w.state.objects[r].segment.byteSize.toNat := by
    intro r sheet hsheet
    have hlt : r < w.state.objects.length := by
      rw [← h.serves.length]; exact (List.getElem?_eq_some_iff.mp hsheet).1
    exact ⟨hlt, h.serves.range (List.getElem?_eq_getElem hlt) hsheet⟩
  refine h.backed.disjoint fun r r' sheet sheet' hne hsheet hsheet' => ?_
  obtain ⟨hlt, hbase, hsize⟩ := hobject hsheet
  obtain ⟨hlt', hbase', hsize'⟩ := hobject hsheet'
  have hapart := List.pairwise_iff_getElem.mp h.apart
  rw [hbase, hsize, hbase', hsize']
  rcases Nat.lt_or_gt_of_ne hne with hrr' | hrr'
  · exact hapart r r' hlt hlt' hrr'
  · exact (hapart r' r hlt' hlt hrr').symm

theorem run (h : Isolated cfg w a) (hs : w.state.step cfg l = some (out, s'))
    (hapart : Apart s'.objects) :
    ∃ a', Isolated cfg ⟨s', w.memory, (commit cfg ⟨w.state, l, out⟩).elim w.slices
      (slicesAfter s'.depth w.memory w.slices)⟩ a' := by
  obtain ⟨place, hc⟩ := h.custody
  obtain ⟨a', hfollows, hserves⟩ := h.serves.step hc h.histories hs
  have hhistories := h.histories.step hc hs
  refine ⟨a', hc.step hs, hhistories, hserves, ?_, hapart, ?_⟩
  · cases hcommit : commit cfg ⟨w.state, l, out⟩ with
    | none =>
      rw [hcommit] at hfollows
      obtain rfl : a' = a := hfollows
      exact h.backed
    | some e =>
      rw [hcommit] at hfollows
      exact h.backed.step hfollows fun r c v sheet' hreq hout hsheet =>
        h.serves.depth hc hs hcommit hfollows hhistories hserves hreq hout hsheet
  · cases commit cfg ⟨w.state, l, out⟩ with
    | none => exact h.contents
    | some e => exact contents_after h.contents

theorem store (h : Isolated cfg w a) {i offset : Nat} {bytes : List UInt8} {g : Lent}
    (hg : w.slices[i]? = some g) (hfits : offset + bytes.length ≤ g.segment.byteSize.toNat) :
    Isolated cfg ⟨w.state, Bytes.store w.memory (g.segment.address.toNat + offset) bytes,
      w.slices.set i { g with contents := Bytes.splice g.contents offset bytes }⟩ a := by
  have hdisjoint := List.pairwise_iff_getElem.mp h.disjoint
  obtain ⟨hi, hgi⟩ := List.getElem?_eq_some_iff.mp hg
  refine ⟨h.custody, h.histories, h.serves, h.backed.congr (Lent.lease_set hg rfl), h.apart,
    fun g' hg' => ?_⟩
  obtain ⟨j, hj⟩ := List.mem_iff_getElem?.mp hg'
  rcases Table.set_cases hj with ⟨rfl, rfl⟩ | ⟨hne, hj⟩
  · rw [Bytes.load_store_within hfits, h.contents g (List.mem_of_getElem? hg)]
  · obtain ⟨hj, hgj⟩ := List.getElem?_eq_some_iff.mp hj
    have hapart : Disjoint g.bytes g'.bytes := by
      rw [← hgi, ← hgj]
      rcases Nat.lt_or_gt_of_ne hne with hlt | hgt
      · exact (hdisjoint j i hj hi hlt).symm
      · exact hdisjoint i j hi hj hgt
    rw [← h.contents g' (hgj ▸ List.getElem_mem hj)]
    refine Bytes.load_store_apart fun k hk => ?_
    by_contra hin
    have hmem : g'.segment.address.toNat + k ∈ g.bytes := ⟨by omega, by omega⟩
    exact Set.disjoint_left.mp hapart hmem ⟨by omega, by omega⟩

theorem step (h : Isolated cfg w a) {label : World.Label Thread} {o : Option Outcome}
    (hs : w.step cfg label = some (o, w')) :
    ∃ a', Isolated cfg w' a' := by
  cases label with
  | run l =>
    simp only [World.step] at hs
    split at hs
    · cases hs
    · next out s' hstep =>
      split at hs
      · next hapart =>
        cases hs
        exact h.run hstep hapart
      · cases hs
  | store i offset bytes =>
    simp only [World.step] at hs
    split at hs
    · cases hs
    · next g hg =>
      split at hs
      · next hfits =>
        cases hs
        exact ⟨a, h.store hg hfits⟩
      · cases hs

end Isolated

/-- **What is stored through a slice stays there.** Threads get stacks, push,
allocate, close and hand stacks over in any interleaving, and store through any
live slices in between: no two live slices share a byte, whichever stacks they
are of, and each holds what it held when it was allocated, with what was stored
through it since. -/
theorem slices_private {memory : Bytes.Memory}
    {trace : List (Runs.Step (World Thread) (World.Label Thread) (Option Outcome))}
    (h : Runs.Run (World.step cfg) (World.init Thread memory) trace w) :
    (w.slices.Pairwise fun g g' => Disjoint g.bytes g'.bytes) ∧
      ∀ g ∈ w.slices, Bytes.load w.memory g.segment.address.toNat g.segment.byteSize.toNat =
        g.contents := by
  obtain ⟨a, hw⟩ :=
    h.invariant (fun w => ∃ a, Isolated cfg w a) ⟨_, .init cfg memory⟩ fun ⟨_, hw⟩ hs => hw.step hs
  exact ⟨hw.disjoint, hw.contents⟩

end Worlds

/-- A slice of each of two threads, both stored to. -/
theorem slices_private_two :
    let cfg : Config Nat := ⟨64, by decide, 8, fun t => t = 0, 99⟩
    ∃ trace w, Runs.Run (World.step cfg) (World.init Nat fun _ => 0) trace w ∧
      w.slices.map Lent.contents = [[1, 2, 3, 4], [0, 0, 0, 0, 9, 9, 0, 0]] ∧
      (w.slices.Pairwise fun g g' => Disjoint g.bytes g'.bytes) ∧
      ∀ g ∈ w.slices, Bytes.load w.memory g.segment.address.toNat g.segment.byteSize.toNat =
      g.contents := by
  intro cfg
  let next (t : Nat) (address : Long) (h : address.toNat + 64 ≤ 2 ^ 64) : World.Label Nat :=
    .run (.thread t (.next ⟨fun _ => true, some ⟨address, 64, by decide, h⟩⟩))
  let labels : List (World.Label Nat) :=
    .run (.thread 0 .pushStack) :: List.replicate 3 (next 0 0x1000 (by decide)) ++
      .run (.thread 1 .pushStack) :: List.replicate 4 (next 1 0x2000 (by decide)) ++
      [.run (.thread 0 (.allocate 0 8 8)), .run (.thread 1 (.allocate 1 4 4)),
        .store 0 0 [1, 2, 3, 4], .store 1 4 [9, 9]]
  have hfacts : (Runs.final (World.step cfg) (World.init Nat fun _ => 0) labels).map (fun w =>
      decide (w.slices.map Lent.contents =
        [[1, 2, 3, 4], [0, 0, 0, 0, 9, 9, 0, 0]])) = some true := by
    decide +kernel
  obtain ⟨w, hw, hfacts⟩ := Option.map_eq_some_iff.mp hfacts
  obtain ⟨trace, hrun⟩ := Runs.exists_run hw
  exact ⟨trace, w, hrun, of_decide_eq_true hfacts, slices_private hrun⟩

end FfiBenchmark.Pool
