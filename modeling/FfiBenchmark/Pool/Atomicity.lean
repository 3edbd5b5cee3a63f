/-
The threads of a run get the answers of the service, each call in one step.

`getStack` and `close` go statement by statement, and between two statements
other threads take steps. Each call still has one step at which it takes effect
(`commit`): `getStack` where it finds a stack, takes one from `cachePool` or
makes one, `close` where it returns. `Serves` relates the state between two
steps to the service: a thread holds the stack it has bound or in transit, and
the stack a `close` is partway through is there as it was before (`Stage`).
-/
import FfiBenchmark.Lib.Simulation
import FfiBenchmark.Pool.Histories
import FfiBenchmark.Pool.Retention
import FfiBenchmark.Pool.Service

namespace FfiBenchmark

namespace NativeStack

open Pool (Sheet)

variable {Thread : Type}

/-- The stack as its user sees it. -/
def sheet (x : NativeStack Thread) : Sheet where
  base := x.segment.address.toNat
  size := x.segment.byteSize.toNat
  shared := x.shared
  offset := x.offset.toNat
  marks := x.marks.map BitVec.toNat

variable {x : NativeStack Thread}

theorem Wf.length_sheet (h : x.Wf) : x.sheet.marks.length = x.frameIndex := by
  rw [sheet, List.length_map, h.length_marks]

theorem Wf.sheet_pushed (h : x.Wf) :
    x.pushed.sheet = { x.sheet with marks := x.sheet.marks ++ [x.sheet.offset] } := by
  have hmarks : x.pushed.marks.map BitVec.toNat = x.marks.map BitVec.toNat ++ [x.offset.toNat] := by
    rw [h.marks_pushed, List.map_append]
    rfl
  simp only [sheet, hmarks]
  rfl

/-- The offsets below the last one, once `frameIndex` is one less. -/
theorem marks_dropped {ms : List Nat} {mark : Nat} (h : x.marks.map BitVec.toNat = ms ++ [mark]) :
    ({ x with frameIndex := ms.length } : NativeStack Thread).marks.map BitVec.toNat = ms := by
  have hlt : ms.length < x.marks.length := by
    rw [← x.marks.length_map BitVec.toNat, h]
    simp
  have htake : ({ x with frameIndex := ms.length } : NativeStack Thread).marks =
      x.marks.take ms.length := by
    rw [NativeStack.marks, List.length_take] at hlt
    have hle : ms.length ≤ x.frameIndex := by omega
    rw [NativeStack.marks, NativeStack.marks, List.take_take, Nat.min_eq_left hle]
  rw [htake, List.map_take, h, List.take_left]

theorem valid_iff {byteSize byteAlignment : Long} :
    Sheet.Valid byteSize byteAlignment ↔
      0 ≤ byteSize.toInt ∧ ∃ k < 63, byteAlignment = BitVec.twoPow 64 k := by
  rw [Sheet.Valid, eq_twoPow_iff]

theorem fits_iff {byteSize byteAlignment : Long} {start : Nat} :
    x.sheet.Fits byteSize byteAlignment start ↔ x.FirstFit byteSize byteAlignment start := by
  have hsegment := x.segment.byteSize_toInt
  constructor
  · rintro ⟨⟨hsize, halignment⟩, hleast, hroom⟩
    have hnat := toInt_eq_toNat hsize
    have hroom : start + byteSize.toNat ≤ x.segment.address.toNat + x.segment.byteSize.toNat :=
      hroom
    exact ⟨hsize, halignment, hleast, by omega⟩
  · rintro ⟨hsize, halignment, hleast, hfits⟩
    have hnat := toInt_eq_toNat hsize
    have hroom : start + byteSize.toNat ≤ x.segment.address.toNat + x.segment.byteSize.toNat := by
      omega
    exact ⟨⟨hsize, halignment⟩, hleast, hroom⟩

theorem checkAllocationSizeAndAlign_error {byteSize byteAlignment : Long} {e : Exn}
    (h : checkAllocationSizeAndAlign byteSize byteAlignment = .error e) :
    ∃ message, e = .illegalArgument message := by
  unfold checkAllocationSizeAndAlign at h
  by_cases hsize : byteSize.toInt < 0
  · simp only [hsize, if_true] at h
    cases h
    exact ⟨_, rfl⟩
  · by_cases halign : byteAlignment.toInt ≤ 0 ∨ byteAlignment &&& (byteAlignment - 1) ≠ 0
    · simp only [hsize, if_false, halign, if_true] at h
      cases h
      exact ⟨_, rfl⟩
    · simp only [hsize, if_false, halign] at h
      cases h

/-- What the exception of a refused `allocate` says. -/
theorem place_error (h : x.Wf) {byteSize byteAlignment : Long} {e : Exn}
    (hplace : place x.segment x.offset byteSize byteAlignment = .error e) :
    Sheet.Refused byteSize byteAlignment e := by
  have hchecks := checkAllocationSizeAndAlign_cases byteSize byteAlignment
  rw [← valid_iff] at hchecks
  rcases hchecks with ⟨hcheck, hvalid⟩ | ⟨⟨e', hcheck⟩, hnot⟩
  · refine ⟨fun _ => ?_, fun hnot => absurd hvalid hnot⟩
    obtain ⟨hsize, k, hk, rfl⟩ := valid_iff.mp hvalid
    have hnofit : ∀ m, ¬ x.FirstFit byteSize (BitVec.twoPow 64 k) m := by
      rcases place_cases x h.offset_le byteSize (BitVec.twoPow 64 k) with
        ⟨_, _, _, -, hok, -⟩ | ⟨_, hno, -⟩
      · rw [hplace] at hok
        cases hok
      · exact hno
    have hout : ¬ x.segment.Encloses (alignUp (x.segment.address + x.offset)
        (BitVec.twoPow 64 k) - x.segment.address) byteSize := by
      rw [encloses_iff x.segment h.offset_le hsize hk]
      intro hfits
      have hnat : (BitVec.twoPow 64 k).toNat = 2 ^ k := BitVec.toNat_twoPow_of_lt (by omega)
      refine hnofit _ ⟨hsize, hvalid.2, ?_, hfits⟩
      rw [hnat]
      exact Rounding.isLeast_roundUp (Nat.two_pow_pos k) _
    simp only [place, hcheck, MemorySegment.asSlice, dif_neg hout] at hplace
    exact (Except.error.inj hplace).symm
  · refine ⟨fun hvalid => absurd (valid_iff.mp hvalid) (by rwa [valid_iff] at hnot), fun _ => ?_⟩
    simp only [place, hcheck] at hplace
    cases hplace
    exact checkAllocationSizeAndAlign_error hcheck

variable [DecidableEq Thread] {t : Thread}

/-- A call by the owner does to the stack what it does in the service. -/
theorem does_exec (h : x.Wf) (how : x.owner = some t) {c : Call} (hc : c ≠ .close) :
    x.sheet.Does c (.of (Loop.outcome (exec t c x))) (Method.fields (exec t c x)).sheet := by
  cases c with
  | push heap =>
    simp only [exec, Method.bind_apply]
    by_cases room : x.CanPush heap
    · rw [push_ok h how room]
      simp only [Method.pure_apply, Loop.outcome_ok, Method.fields_ok, h.sheet_pushed]
      refine .pushed ?_
      have hle := h.index_le
      have hlen := h.frames_le
      rw [h.length_sheet]
      rcases room with hlt | ⟨hlt, -⟩ <;> omega
    · rw [push_full h how room]
      obtain ⟨k, hk⟩ := h.frames_length
      have hle := h.index_le
      have hfull : x.frameIndex = x.frames.length := by
        have := (not_or.mp room).1
        omega
      have hlength : x.sheet.marks.length = x.frames.length := by rw [h.length_sheet, hfull]
      refine .full (k := k) (by rw [hlength, hk]) (fun hlt => ?_) (by rw [hlength])
      rw [hlength] at hlt ⊢
      exact Bool.eq_false_iff.mpr fun hheap => room (.inr ⟨hlt, hheap⟩)
  | close => exact absurd rfl hc
  | allocate byteSize byteAlignment =>
    simp only [exec, Method.bind_apply, allocate_eq, if_pos how]
    rcases place_cases x h.offset_le byteSize byteAlignment with
      ⟨m, slice, offset, hfit, hplace, -, hat⟩ | ⟨e, hno, hplace⟩
    · simp only [hplace, Method.pure_apply, Loop.outcome_ok, Method.fields_ok]
      have hge := hfit.least.1.2
      have hbounds := hat.bounds hfit
      have hstart := hat.start
      have hsize := hat.size
      have hoffset : ({ x with offset := offset } : NativeStack Thread).sheet =
          { x.sheet with offset := m - x.segment.address.toNat + byteSize.toNat } := by
        have hnat : offset.toNat = m - x.segment.address.toNat + byteSize.toNat := by
          rw [hsize] at hbounds
          omega
        simp only [sheet, hnat]
        rfl
      rw [hoffset]
      refine .allocated (fits_iff.mpr hfit) ?_ hsize
      have haddress : slice.address = x.segment.address + (slice.address - x.segment.address) := by
        rw [BitVec.add_comm, BitVec.sub_add_cancel]
      rw [haddress, BitVec.toNat_add]
      congr 1
      omega
    · simp only [hplace, Loop.outcome_error, Method.fields_error]
      exact .refused (fun start hfits => hno start (fits_iff.mp hfits)) (place_error h hplace)

end NativeStack

namespace Pool

open NativeStack (Call)

variable {Thread : Type}

/-- Between two statements of a `close`: the stack as it was before, and its fields now. -/
def Stage : Pc → Sheet → Sheet → Prop
  | .dropping _ prevIndex, before, now =>
    ∃ ms mark, before.marks = ms ++ [mark] ∧ prevIndex = ms.length ∧
      now = { before with offset := mark }
  | .returning _ prevIndex, before, now =>
    ∃ ms mark, before.marks = ms ++ [mark] ∧ prevIndex = ms.length ∧
      now = { before with offset := mark, marks := ms }
  | .unsetting _, before, now | .disowning _, before, now | .caching _, before, now =>
    ∃ mark, before.marks = [mark] ∧ before.shared = true ∧
      now = { before with offset := mark, marks := [] }
  | .idle, before, now | .missing _, before, now | .registering _ _ _, before, now
  | .setting _ _, before, now
  | .pushing _, before, now | .testing _, before, now | .restoring _ _, before, now => now = before

theorem Stage.of_stack {pc : Pc} {before now : Sheet} (h : Stage pc before now)
    (hnone : pc.stack = none) :
    now = before := by
  cases pc <;> first | exact h | cases hnone

variable [DecidableEq Thread]

/-- The stack a thread has bound, or in transit. -/
def State.held (s : State Thread) (t : Thread) : Option Nat :=
  (s.threadStack.lookup t).or ((s.running.pc t).transit.map Prod.fst)

/-- The service is where the state is, but for the calls in progress. -/
structure Serves (s : State Thread) (a : Service Thread) : Prop where
  length : a.sheets.length = s.objects.length
  stage : ∀ (r : Nat) x sheet, s.objects[r]? = some x → a.sheets[r]? = some sheet →
    (∀ t, (s.running.pc t).stack = some r → Stage (s.running.pc t) sheet x.sheet) ∧
      ((∀ t, (s.running.pc t).stack ≠ some r) → x.sheet = sheet)
  holds : ∀ t, a.holds t = s.held t
  free : a.free = s.cachePool

/-- The event of the service that a step is, if it is the one at which its call takes effect. -/
def commit (cfg : Config Thread) (e : Runs.Step (State Thread) (Label Thread) Outcome) :
    Option (Event Thread) :=
  match e.label with
  | .clean _ => none
  | .thread t act =>
    match e.before.running.pc t, act with
    | .idle, .getStack =>
      (e.before.threadStack.lookup t).map fun r => ⟨t, .getStack false, .stack r⟩
    | .idle, .pushStack =>
      (e.before.threadStack.lookup t).map fun r => ⟨t, .getStack true, .stack r⟩
    | .idle, .push r heap => some ⟨t, .call r (.push heap), e.outcome⟩
    | .idle, .allocate r byteSize byteAlignment =>
      some ⟨t, .call r (.allocate byteSize byteAlignment), e.outcome⟩
    | .idle, .exit => some ⟨t, .exit, .exited⟩
    | .missing thenPush, _ =>
      if e.outcome = .running then
        let r :=
          if cfg.isVirtual t then e.before.cachePool.getLastD e.before.objects.length
          else e.before.objects.length
        some ⟨t, .getStack thenPush, .stack r⟩
      else some ⟨t, .getStack thenPush, e.outcome⟩
    | .pushing r, .next vm => some ⟨t, .call r (.push vm.heap), e.outcome⟩
    | .idle, .close r | .testing r, _ | .returning r _, _ | .caching r, _ =>
      if e.outcome = .running then none else some ⟨t, .call r .close, e.outcome⟩
    | _, _ => none

namespace Serves

variable {cfg : Config Thread} {s s' : State Thread} {a : Service Thread}
  {place : Nat → Place Thread} {t : Thread} {act : Act} {out : Outcome} {r : Nat}
  {x x' : NativeStack Thread} {sheet sheet' : Sheet} {pc : Pc}

theorem init : Serves (State.init Thread) (Service.init Thread) where
  length := rfl
  stage := by simp [State.init]
  holds _ := rfl
  free := rfl

/-- `t` goes on to `pc` and leaves the stack `r`, which it has in hand before or
after, with the fields `x'`. -/
theorem touch (h : Serves s a) {objects : List (NativeStack Thread)}
    {threadStack : AList fun _ : Thread => Nat} {cachePool : List Nat} {cleanables : List Cleanable}
    {exited : List Thread} {a' : Service Thread} (hx : s.objects[r]? = some x)
    (hobjects : objects = s.objects.set r x') (hsheets : a'.sheets = a.sheets.set r sheet')
    (halone : ∀ t', t' ≠ t → (s.running.pc t').stack ≠ some r)
    (hold : ∀ r', (s.running.pc t).stack = some r' → r' = r)
    (hnew : ∀ r', pc.stack = some r' → r' = r) (hstage : Stage pc sheet' x'.sheet)
    (hholds : ∀ t', a'.holds t' = State.held { s with
      threadStack := threadStack, running := s.running.assign t pc } t')
    (hfree : a'.free = cachePool) :
    Serves { s with
      objects := objects
      threadStack := threadStack
      cachePool := cachePool
      cleanables := cleanables
      exited := exited
      running := s.running.assign t pc } a' where
  length := by rw [hsheets, hobjects, List.length_set, List.length_set, h.length]
  stage r' y sheet'' hy hsheet := by
    simp only [hobjects] at hy
    rw [hsheets] at hsheet
    rcases Table.set_cases hy with ⟨rfl, rfl⟩ | ⟨hne, hy⟩
    · obtain rfl : sheet'' = sheet' := by
        rcases Table.set_cases hsheet with ⟨-, heq⟩ | ⟨hne, -⟩
        · exact heq
        · exact absurd rfl hne
      refine ⟨fun t' hr => ?_, fun hnone => ?_⟩
      · rw [Running.pc_assign] at hr ⊢
        split
        · exact hstage
        · next ht' =>
          rw [if_neg ht'] at hr
          exact absurd hr (halone t' ht')
      · refine hstage.of_stack (Option.eq_none_iff_forall_ne_some.mpr fun r'' hr'' => hnone t ?_)
        rw [Running.pc_assign_self, hr'', hnew r'' hr'']
    · have hsheet : a.sheets[r']? = some sheet'' := by
        rcases Table.set_cases hsheet with ⟨heq, -⟩ | ⟨-, hsheet⟩
        · exact absurd heq hne
        · exact hsheet
      obtain ⟨hin, hout⟩ := h.stage r' y sheet'' hy hsheet
      refine ⟨fun t' hr => ?_, fun hnone => hout fun t' hr => ?_⟩
      · rw [Running.pc_assign] at hr ⊢
        split
        · next ht' =>
          rw [if_pos ht'] at hr
          exact absurd (hnew r' hr) hne
        · next ht' =>
          rw [if_neg ht'] at hr
          exact hin t' hr
      · by_cases ht' : t' = t
        · exact hne (hold r' (ht' ▸ hr))
        · exact hnone t' (by rw [Running.pc_assign_ne _ ht']; exact hr)
  holds t' := hholds t'
  free := hfree

/-- `t` goes on to `pc` and has no stack in hand, before or after. -/
theorem rest (h : Serves s a) {threadStack : AList fun _ : Thread => Nat} {exited : List Thread}
    {a' : Service Thread} (hold : (s.running.pc t).stack = none) (hnew : pc.stack = none)
    (hsheets : a'.sheets = a.sheets)
    (hholds : ∀ t', a'.holds t' = State.held { s with
      threadStack := threadStack, running := s.running.assign t pc } t')
    (hfree : a'.free = a.free) :
    Serves
      { s with threadStack := threadStack, exited := exited, running := s.running.assign t pc }
      a' where
  length := by rw [hsheets, h.length]
  stage r y sheet hy hsheet := by
    rw [hsheets] at hsheet
    obtain ⟨hin, hout⟩ := h.stage r y sheet hy hsheet
    have hpc : ∀ t' r', ((s.running.assign t pc).pc t').stack = some r' ↔
        (s.running.pc t').stack = some r' := by
      intro t' r'
      by_cases ht' : t' = t
      · rw [ht', Running.pc_assign_self, hold, hnew]
      · rw [Running.pc_assign_ne _ ht']
    refine ⟨fun t' hr => ?_, fun hnone => hout fun t' hr => hnone t' ((hpc t' r).mpr hr)⟩
    have ht' : t' ≠ t := by
      rintro rfl
      rw [hpc, hold] at hr
      cases hr
    rw [Running.pc_assign_ne _ ht'] at hr ⊢
    exact hin t' hr
  holds := hholds
  free := hfree.trans h.free

/-! ### Who holds what -/

theorem holds_stay (h : Serves s a)
    (htransit : pc.transit.map Prod.fst = (s.running.pc t).transit.map Prod.fst) (t' : Thread) :
    a.holds t' = State.held { s with running := s.running.assign t pc } t' := by
  rw [h.holds, State.held, State.held]
  by_cases ht' : t' = t
  · rw [ht', Running.pc_assign_self, htransit]
  · rw [Running.pc_assign_ne _ ht']

theorem holds_update (h : Serves s a) {threadStack : AList fun _ : Thread => Nat} {q : Option Nat}
    (hother : ∀ t', t' ≠ t → threadStack.lookup t' = s.threadStack.lookup t')
    (hself : (threadStack.lookup t).or (pc.transit.map Prod.fst) = q) (t' : Thread) :
    Function.update a.holds t q t' =
      State.held { s with threadStack := threadStack, running := s.running.assign t pc } t' := by
  by_cases ht' : t' = t
  · rw [ht', Function.update_self, State.held, Running.pc_assign_self, hself]
  · rw [Function.update_of_ne ht', h.holds, State.held, State.held, hother t' ht',
      Running.pc_assign_ne _ ht']

/-- A thread owns the stack it holds. -/
theorem owner_iff (h : Serves s a) (hc : Custody cfg s place) (hlive : t ∉ s.exited)
    (htransit : (s.running.pc t).transit = none) (hx : s.objects[r]? = some x) :
    x.owner = some t ↔ a.holds t = some r := by
  rw [h.holds, State.held, htransit, Option.map_none, Option.or_none]
  constructor
  · intro how
    rcases hc.of_owner hlive hx how with hb | hin
    · exact hb
    · rw [htransit] at hin
      cases hin
  · intro hb
    have hp : place r = .bound t := hc.at_place (.bound hb)
    rw [hc.owner_eq (by simp [hp]) hx, hp]
    rfl

theorem exists_sheet (h : Serves s a) (hx : s.objects[r]? = some x) :
    ∃ sheet, a.sheets[r]? = some sheet := by
  have hlt := (List.getElem?_eq_some_iff.mp hx).1
  exact ⟨_, List.getElem?_eq_getElem (by rw [h.length]; exact hlt)⟩

/-- The fields of a stack that no thread has in hand, or only `t` does, outside of a `close`. -/
theorem sheet_eq (h : Serves s a) (hx : s.objects[r]? = some x) (hsheet : a.sheets[r]? = some sheet)
    (halone : ∀ t', t' ≠ t → (s.running.pc t').stack ≠ some r)
    (hstage : ∀ before now, Stage (s.running.pc t) before now → now = before) :
    x.sheet = sheet := by
  obtain ⟨hin, hout⟩ := h.stage r x sheet hx hsheet
  by_cases hr : (s.running.pc t).stack = some r
  · exact hstage _ _ (hin t hr)
  · refine hout fun t' hr' => ?_
    by_cases ht' : t' = t
    · exact hr (ht' ▸ hr')
    · exact halone t' ht' hr'

/-! ### The steps -/

/-- A statement on the stack in hand that the service does not see. -/
theorem inside (h : Serves s a) (hc : Custody cfg s place) {objects : List (NativeStack Thread)}
    {threadStack : AList fun _ : Thread => Nat} (hx : s.objects[r]? = some x)
    (hobjects : objects = s.objects.set r x') (hsheet : a.sheets[r]? = some sheet)
    (hold : (s.running.pc t).stack = some r) (hnew : pc.stack = some r)
    (hstage : Stage pc sheet x'.sheet)
    (hholds : ∀ t', a.holds t' = State.held { s with
      threadStack := threadStack, running := s.running.assign t pc } t') :
    Serves { s with
        objects := objects, threadStack := threadStack, running := s.running.assign t pc } a :=
  h.touch hx hobjects (Table.set_same hsheet).symm (hc.alone (.inl (hc.holder_of_stack hold)))
    (fun _ hr => Option.some.inj (hr.symm.trans hold))
    (fun _ hr => Option.some.inj (hr.symm.trans hnew)) hstage hholds h.free

/-- `getStack` finds the thread's stack. -/
theorem hit (h : Serves s a) (hc : Custody cfg s place) (thenPush : Bool)
    (hpc : s.running.pc t = .idle) (hb : s.threadStack.lookup t = some r) :
    a.holds t = some r ∧
      Serves { s with running := s.running.assign t (obtained r thenPush).2 } a := by
  have hholds : a.holds t = some r := by rw [h.holds, State.held, hb]; rfl
  have hp : place r = .bound t := hc.at_place (.bound hb)
  have hx := List.getElem?_eq_getElem (hc.lt_length (show place r ≠ .nowhere by simp [hp]))
  obtain ⟨sheet, hsheet⟩ := h.exists_sheet hx
  have halone := hc.alone (t := t) (r := r) (.inl (by rw [hp]; rfl))
  have hsame := h.sheet_eq hx hsheet halone (by rw [hpc]; exact fun _ _ hst => hst)
  refine ⟨hholds, h.touch hx (Table.set_same hx).symm (Table.set_same hsheet).symm halone
    (by simp [hpc, Pc.stack]) ?_ ?_
    (h.holds_stay ?_) h.free⟩
  · cases thenPush <;> simp [obtained, Pc.stack]
  · cases thenPush <;> exact hsame
  · rw [hpc]
    cases thenPush <;> rfl

/-- A stack is taken from `cachePool`. -/
theorem took (h : Serves s a) (hc : Custody cfg s place) {pool : List Nat} {thenPush : Bool}
    (hpc : s.running.pc t = .missing thenPush) (hpool : s.cachePool = pool ++ [r])
    (hx : s.objects[r]? = some x) :
    a.holds t = none ∧ Serves { s with
        objects := s.objects.set r (x.changeOwner t)
        cachePool := pool
        running := s.running.assign t (.setting r thenPush) }
      { a with holds := Function.update a.holds t (some r), free := pool } := by
  have hnone : s.threadStack.lookup t = none := hc.binding_of hpc (by simp) rfl
  have hp : place r = .pooled := by rw [← (hc.stack r).pooled, hpool]; simp
  obtain ⟨sheet, hsheet⟩ := h.exists_sheet hx
  have halone := hc.alone (t := t) (r := r) (.inr (by rw [hp]; rfl))
  have hsame : x.sheet = sheet :=
    h.sheet_eq hx hsheet halone (by rw [hpc]; exact fun _ _ hst => hst)
  refine ⟨by rw [h.holds, State.held, hnone, hpc]; rfl,
    h.touch hx rfl (Table.set_same hsheet).symm halone
    (by simp [hpc, Pc.stack]) (by simp [Pc.stack]) hsame (h.holds_update (fun _ _ => rfl) ?_) rfl⟩
  rw [hnone]
  rfl

/-- A stack is made. -/
theorem made (h : Serves s a) (hc : Custody cfg s place) {segment : MemorySegment}
    {sharedArena : List MemorySegment} {arenas : List (Arena Thread)} {thenPush shared : Bool}
    (hpc : s.running.pc t = .missing thenPush) (hv : cfg.isVirtual t = shared)
    (hpool : shared = true → s.cachePool = []) (hsize : segment.byteSize = cfg.stackSize)
    (hstack : pc.stack = some s.objects.length)
    (htransit : pc.transit = some (s.objects.length, true))
    (hstage : ∀ before, Stage pc before before) :
    ∃ a', Service.Next cfg a ⟨t, .getStack thenPush, .stack s.objects.length⟩ a' ∧ Serves { s with
      objects := s.objects ++ [.new t segment shared]
      sharedArena := sharedArena
      arenas := arenas
      running := s.running.assign t pc } a' := by
  subst hv
  have hnone : s.threadStack.lookup t = none := hc.binding_of hpc (by simp) rfl
  have hfresh : place s.objects.length = .nowhere := (hc.stack _).fresh (Nat.le_refl _)
  have hnobody : ∀ t', (s.running.pc t').stack ≠ some s.objects.length := by
    intro t' hr
    have := hc.holder_of_stack hr
    rw [hfresh] at this
    cases this
  have hnew : (NativeStack.new t segment (cfg.isVirtual t)).sheet =
      ⟨segment.address.toNat, cfg.stackSize.toNat, cfg.isVirtual t, 0, []⟩ := by
    rw [← hsize]
    rfl
  have hholds : a.holds t = none := by rw [h.holds, State.held, hnone, hpc]; rfl
  rw [← h.length]
  refine ⟨_, .fresh hholds (fun hv => h.free.trans (hpool hv)) (hsize ▸ segment.in_range), ?_,
    fun r y sheet hy hsheet => ?_, ?_, h.free⟩
  · simp only [List.length_append, List.length_singleton, h.length]
  · simp only at hy hsheet
    rcases Nat.lt_trichotomy r s.objects.length with hlt | rfl | hgt
    · rw [List.getElem?_append_left hlt] at hy
      rw [List.getElem?_append_left (by rw [h.length]; exact hlt)] at hsheet
      obtain ⟨hin, hout⟩ := h.stage r y sheet hy hsheet
      refine ⟨fun t' hr => ?_, fun hall => hout fun t' hr => ?_⟩
      · have ht' : t' ≠ t := by
          rintro rfl
          rw [Running.pc_assign_self, hstack] at hr
          exact absurd (Option.some.inj hr) (by omega)
        rw [Running.pc_assign_ne _ ht'] at hr ⊢
        exact hin t' hr
      · have ht' : t' ≠ t := by
          rintro rfl
          rw [hpc] at hr
          cases hr
        exact hall t' (by rw [Running.pc_assign_ne _ ht']; exact hr)
    · rw [List.getElem?_concat_length] at hy
      rw [← h.length, List.getElem?_concat_length] at hsheet
      cases hy
      cases hsheet
      rw [hnew]
      refine ⟨fun t' hr => ?_, fun _ => rfl⟩
      by_cases ht' : t' = t
      · rw [ht', Running.pc_assign_self]
        exact hstage _
      · rw [Running.pc_assign_ne _ ht'] at hr
        exact absurd hr (hnobody t')
    · rw [List.getElem?_eq_none (by simp; omega)] at hy
      cases hy
  · rw [h.length]
    refine h.holds_update (fun _ _ => rfl) ?_
    rw [hnone, htransit]
    rfl

/-- `push` or `allocate`. -/
theorem called (h : Serves s a) (hc : Custody cfg s place) (hh : Histories cfg s)
    (hlive : t ∉ s.exited) {c : Call} (hcall : s.Calls t act r c) (hx : s.objects[r]? = some x) :
    ∃ a', Service.Next cfg a ⟨t, .call r c, .of (Loop.outcome (NativeStack.exec t c x))⟩ a' ∧
      Serves { s with
        objects := s.objects.set r (Method.fields (NativeStack.exec t c x))
        running := s.running.assign t .idle } a' := by
  have hc' : c ≠ .close := by cases hcall <;> simp
  have htransit : (s.running.pc t).transit = none := by
    cases hcall with
    | push hpc | allocate hpc | pushStack hpc => rw [hpc]; rfl
  have hholds : ∀ t', a.holds t' = State.held { s with running := s.running.assign t .idle } t' :=
    h.holds_stay (by rw [htransit]; rfl)
  obtain ⟨sheet, hsheet⟩ := h.exists_sheet hx
  by_cases how : x.owner = some t
  · have hwf := (hh.trail r x hx).wf
    have hheld := hc.holder_of_owner hlive hx how
    have hb := (h.owner_iff hc hlive htransit hx).mp how
    have hin : ∀ r', (s.running.pc t).stack = some r' → r' = r := by
      intro r' hr'
      cases hcall with
      | push hpc | allocate hpc =>
        rw [hpc] at hr'
        cases hr'
      | pushStack hpc =>
        rw [hpc] at hr'
        exact (Option.some.inj hr').symm
    have hsame : x.sheet = sheet := by
      refine h.sheet_eq hx hsheet (hc.alone (.inl hheld)) ?_
      cases hcall with
      | push hpc | allocate hpc | pushStack hpc => rw [hpc]; exact fun _ _ hst => hst
    have hdoes := NativeStack.does_exec hwf how hc'
    rw [hsame] at hdoes
    exact ⟨_, .called hb hsheet hdoes, h.touch hx rfl rfl (hc.alone (.inl hheld)) hin
      (by simp [Pc.stack]) rfl hholds h.free⟩
  · have hidle : (s.running.pc t).stack = none := by
      cases hcall with
      | push hpc | allocate hpc => rw [hpc]; rfl
      | pushStack hpc => exact absurd (hc.owner_of_binding hpc rfl hx) how
    rw [NativeStack.exec_foreign how, Method.fields_error, Table.set_same hx]
    refine ⟨a, .foreign ?_ (fun hb => how ((h.owner_iff hc hlive htransit hx).mpr hb)),
      h.rest hidle rfl rfl hholds rfl⟩
    exact (List.getElem?_eq_some_iff.mp hsheet).1

theorem holds_of_binding (h : Serves s a) (hb : s.threadStack.lookup t = some r) :
    a.holds t = some r := by
  rw [h.holds, State.held, hb]
  rfl

/-- `close` of a stack without frames. -/
theorem empty (h : Serves s a) (hc : Custody cfg s place) (hpc : s.running.pc t = .testing r)
    (hx : s.objects[r]? = some x) (h0 : x.frameIndex = 0) :
    ∃ a', Service.Next cfg a ⟨t, .call r .close, .threw (.illegalState "Stack is empty")⟩ a' ∧
      Serves { s with running := s.running.assign t .idle } a' := by
  have hb : a.holds t = some r := h.holds_of_binding (hc.binding_of hpc (by simp) rfl)
  obtain ⟨sheet, hsheet⟩ := h.exists_sheet hx
  have halone := hc.alone (.inl (hc.holder_of_stack (t := t) (r := r) (by rw [hpc]; rfl)))
  have hsame : x.sheet = sheet :=
    h.sheet_eq hx hsheet halone (by rw [hpc]; exact fun _ _ hst => hst)
  have hmarks : sheet.marks = [] := by
    rw [← hsame, NativeStack.sheet, NativeStack.marks, h0]
    rfl
  refine ⟨_, .called hb hsheet (.empty hmarks), h.touch hx (Table.set_same hx).symm rfl halone ?_
    (by simp [Pc.stack]) hsame
    (h.holds_stay (by rw [hpc]; rfl)) h.free⟩
  simp [hpc, Pc.stack]

/-- `close` of a frame that is not the last one of a shared stack. -/
theorem kept (h : Serves s a) (hc : Custody cfg s place) {prevIndex : Nat}
    (hpc : s.running.pc t = .returning r prevIndex) (hx : s.objects[r]? = some x)
    (hrel : ¬ (prevIndex = 0 ∧ x.shared = true)) :
    ∃ a', Service.Next cfg a ⟨t, .call r .close, .returned (.closed false)⟩ a' ∧
      Serves { s with running := s.running.assign t .idle } a' := by
  have hb : a.holds t = some r := h.holds_of_binding (hc.binding_of hpc (by simp) rfl)
  obtain ⟨sheet, hsheet⟩ := h.exists_sheet hx
  have hstack : (s.running.pc t).stack = some r := by rw [hpc]; rfl
  have hstage := (h.stage r x sheet hx hsheet).1 t hstack
  rw [hpc] at hstage
  obtain ⟨ms, mark, hmarks, rfl, hnow⟩ := hstage
  have hkeep : ¬ (ms = [] ∧ sheet.shared = true) := by
    rintro ⟨rfl, hshared⟩
    exact hrel ⟨rfl, (congrArg Sheet.shared hnow).trans hshared⟩
  refine ⟨_, .called hb hsheet (.closed hmarks hkeep), h.touch hx (Table.set_same hx).symm rfl
    (hc.alone (.inl (hc.holder_of_stack hstack))) ?_ (by simp [Pc.stack]) hnow
    (h.holds_stay (by rw [hpc]; rfl)) h.free⟩
  simp [hpc, Pc.stack]

/-- `close` of the last frame of a shared stack. -/
theorem released (h : Serves s a) (hc : Custody cfg s place) (hpc : s.running.pc t = .caching r) :
    ∃ a', Service.Next cfg a ⟨t, .call r .close, .returned (.closed true)⟩ a' ∧
      Serves { s with
        cachePool := if s.cachePool.length < cfg.cacheLimit then s.cachePool ++ [r] else s.cachePool
        running := s.running.assign t .idle } a' := by
  have hnone : s.threadStack.lookup t = none := hc.binding_of hpc (by simp) rfl
  have hb : a.holds t = some r := by rw [h.holds, State.held, hnone, hpc]; rfl
  have hp : place r = .transit t false := hc.place_of_transit hpc rfl
  have hx := List.getElem?_eq_getElem (hc.lt_length (show place r ≠ .nowhere by simp [hp]))
  obtain ⟨sheet, hsheet⟩ := h.exists_sheet hx
  have hstack : (s.running.pc t).stack = some r := by rw [hpc]; rfl
  have hstage := (h.stage r _ sheet hx hsheet).1 t hstack
  rw [hpc] at hstage
  obtain ⟨mark, hmarks, hshared, hnow⟩ := hstage
  refine ⟨_, .released hb hsheet hshared hmarks, h.touch hx (Table.set_same hx).symm rfl
    (hc.alone (.inl (hc.holder_of_stack hstack))) ?_ (by simp [Pc.stack]) hnow
    (h.holds_update (fun _ _ => rfl) ?_) ?_⟩
  · simp [hpc, Pc.stack]
  · rw [hnone]
    rfl
  · rw [h.free]

theorem exited (h : Serves s a) (hpc : s.running.pc t = .idle) :
    Serves { s with threadStack := s.threadStack.erase t, exited := t :: s.exited }
      { a with holds := Function.update a.holds t none } where
  length := h.length
  stage := h.stage
  holds t' := by
    change Function.update a.holds t none t' = ((s.threadStack.erase t).lookup t').or _
    rw [lookup_erase_ite, Function.update_apply]
    split
    · next ht' => rw [ht', hpc]; rfl
    · rw [h.holds]
      rfl
  free := h.free

/-- **Every step of a thread is a step of the service, or none.** -/
theorem moves (h : Serves s a) (hc : Custody cfg s place) (hh : Histories cfg s)
    (hlive : t ∉ s.exited) (hm : Moves cfg s t act out s') :
    ∃ a', Runs.Follows (Service.Next cfg) a (commit cfg ⟨s, .thread t act, out⟩) a' ∧
      Serves s' a' := by
  have same : ∀ {r} {x : NativeStack Thread}, s.objects[r]? = some x →
      s.objects = s.objects.set r x :=
    fun hx => (Table.set_same hx).symm
  cases hm with
  | @hit r thenPush hpc hb =>
    obtain ⟨hholds, hserves⟩ := h.hit hc thenPush hpc hb
    refine ⟨a, ?_, hserves⟩
    cases thenPush <;> simp only [ask, commit, hpc, hb] <;> exact .again hholds
  | missed thenPush hpc hb =>
    refine ⟨a, ?_, h.rest (by rw [hpc]; rfl) rfl rfl (h.holds_stay (by rw [hpc]; rfl)) rfl⟩
    cases thenPush <;> simp only [ask, commit, hpc, hb] <;> rfl
  | @took vm r x pool thenPush hpc hv hpool hx =>
    obtain ⟨hnone, hserves⟩ := h.took hc hpc hpool hx
    refine ⟨_, ?_, hserves⟩
    simp only [commit, hpc, hv, if_true, hpool, List.getLastD_concat]
    exact .recycled hnone hv (by rw [h.free, hpool])
  | @noMemory vm thenPush hpc hpool =>
    have hnone : s.threadStack.lookup t = none := hc.binding_of hpc (by simp) rfl
    refine ⟨a, ?_, h.rest (by rw [hpc]; rfl) rfl rfl (h.holds_stay (by rw [hpc]; rfl)) rfl⟩
    simp only [commit, hpc]
    exact .exhausted (by rw [h.holds, State.held, hnone, hpc]; rfl)
      fun hv => by rw [h.free, hpool hv]
  | @madeShared vm segment thenPush hpc hv hpool hsize =>
    have hlast : s.cachePool.getLastD s.objects.length = s.objects.length := by rw [hpool]; rfl
    simp only [commit, hpc, hv, if_true, hlast]
    refine h.made hc hpc hv (fun _ => hpool) hsize ?_ ?_ ?_
    · rfl
    · rfl
    · exact fun _ => rfl
  | @madeConfined vm segment thenPush hpc hv hsize =>
    simp only [commit, hpc, hv, if_true, Bool.false_eq_true, if_false]
    refine h.made hc hpc hv (by simp) hsize ?_ ?_ ?_
    · rfl
    · rfl
    · exact fun _ => rfl
  | @registered vm r a' thenPush hpc =>
    have hp : place r = .transit t true := hc.place_of_transit hpc rfl
    have hx := List.getElem?_eq_getElem (hc.lt_length (show place r ≠ .nowhere by simp [hp]))
    obtain ⟨sheet, hsheet⟩ := h.exists_sheet hx
    have hstage := (h.stage r _ sheet hx hsheet).1 t (by rw [hpc]; rfl)
    rw [hpc] at hstage
    refine ⟨a, by simp [commit, hpc, Runs.Follows],
      h.touch hx (same hx) (Table.set_same hsheet).symm
      (hc.alone (.inl (hc.holder_of_stack (by rw [hpc]; rfl)))) (by simp [hpc, Pc.stack])
      (by simp [Pc.stack]) ?_
      (h.holds_stay (by rw [hpc]; rfl)) h.free⟩
    exact hstage
  | @bound vm r thenPush hpc =>
    have hp : place r = .transit t true := hc.place_of_transit hpc rfl
    have hnone : s.threadStack.lookup t = none := hc.binding_of hpc (by simp) rfl
    have hx := List.getElem?_eq_getElem (hc.lt_length (show place r ≠ .nowhere by simp [hp]))
    obtain ⟨sheet, hsheet⟩ := h.exists_sheet hx
    have hstage := (h.stage r _ sheet hx hsheet).1 t (by rw [hpc]; rfl)
    rw [hpc] at hstage
    have hheld : a.holds t = some r := by rw [h.holds, State.held, hnone, hpc]; rfl
    have hholds : ∀ t', a.holds t' = State.held { s with
        threadStack := s.threadStack.insert t r
        running := s.running.assign t (obtained r thenPush).2 } t' := by
      intro t'
      rw [← h.holds_update (t := t) (q := some r) (fun t' ht' => AList.lookup_insert_ne ht') ?_ t',
        ← hheld, Function.update_eq_self]
      rw [AList.lookup_insert]
      rfl
    refine ⟨a, by simp [commit, hpc, Runs.Follows],
      h.touch hx (same hx) (Table.set_same hsheet).symm
      (hc.alone (.inl (hc.holder_of_stack (by rw [hpc]; rfl)))) (by simp [hpc, Pc.stack]) ?_ ?_
      hholds h.free⟩
    · cases thenPush <;> simp [obtained, Pc.stack]
    · cases thenPush <;> exact hstage
  | @called act r c x hcall hx =>
    obtain ⟨a', hnext, hserves⟩ := h.called hc hh hlive hcall hx
    refine ⟨a', ?_, hserves⟩
    cases hcall with
    | push hpc | allocate hpc | pushStack hpc =>
      simp only [commit, hpc]
      exact hnext
  | @checked r x hpc hx how =>
    obtain ⟨sheet, hsheet⟩ := h.exists_sheet hx
    have halone := hc.alone (.inl (hc.holder_of_owner hlive hx how))
    have hsame := h.sheet_eq hx hsheet halone (by rw [hpc]; exact fun _ _ hst => hst)
    refine ⟨a, by simp [commit, hpc, Runs.Follows],
      h.touch hx (same hx) (Table.set_same hsheet).symm halone
      (by simp [hpc, Pc.stack]) (by simp [Pc.stack]) ?_ (h.holds_stay (by rw [hpc]; rfl)) h.free⟩
    exact hsame
  | @refused r x hpc hx how =>
    have hnot : a.holds t ≠ some r :=
      fun hb => how ((h.owner_iff hc hlive (by rw [hpc]; rfl) hx).mpr hb)
    refine ⟨a, ?_, h.rest (by rw [hpc]; rfl) rfl rfl (h.holds_stay (by rw [hpc])) rfl⟩
    simp only [commit, hpc]
    exact .foreign (by rw [h.length]; exact (List.getElem?_eq_some_iff.mp hx).1) hnot
  | @tested vm r x prevIndex hpc hx hindex =>
    obtain ⟨sheet, hsheet⟩ := h.exists_sheet hx
    have hstage := (h.stage r x sheet hx hsheet).1 t (by rw [hpc]; rfl)
    rw [hpc] at hstage
    exact ⟨a, by simp [commit, hpc, Runs.Follows],
      h.inside hc hx (same hx) hsheet (by rw [hpc]; rfl) rfl hstage
      (h.holds_stay (by rw [hpc]; rfl))⟩
  | empty hpc hx h0 =>
    obtain ⟨a', hnext, hserves⟩ := h.empty hc hpc hx h0
    refine ⟨a', ?_, hserves⟩
    simp only [commit, hpc]
    exact hnext
  | @restored vm r x prevIndex mark hpc hx hmark =>
    obtain ⟨sheet, hsheet⟩ := h.exists_sheet hx
    have hstage := (h.stage r x sheet hx hsheet).1 t (by rw [hpc]; rfl)
    rw [hpc] at hstage
    obtain ⟨hm, hlen⟩ := marks_concat (hh.trail r x hx).wf (hh.index t r prevIndex x hpc hx) hmark
    refine ⟨a, by simp [commit, hpc, Runs.Follows], h.inside hc hx rfl hsheet (by rw [hpc]; rfl) rfl
      ⟨(x.frames.take prevIndex).map BitVec.toNat, mark.toNat, ?_, ?_, ?_⟩
      (h.holds_stay (by rw [hpc]; rfl))⟩
    · rw [← hstage, NativeStack.sheet, hm, List.map_append]
      rfl
    · rw [List.length_map, hlen]
    · rw [← hstage]
      rfl
  | @unrestored vm r x prevIndex hpc hx hmark =>
    have hindex := hh.index t r prevIndex x hpc hx
    have hle := (hh.trail r x hx).wf.index_le
    rw [List.getElem?_eq_none_iff] at hmark
    omega
  | @dropped vm r x prevIndex hpc hx =>
    obtain ⟨sheet, hsheet⟩ := h.exists_sheet hx
    have hstage := (h.stage r x sheet hx hsheet).1 t (by rw [hpc]; rfl)
    rw [hpc] at hstage
    obtain ⟨ms, mark, hmarks, rfl, hnow⟩ := hstage
    refine ⟨a, by simp [commit, hpc, Runs.Follows], h.inside hc hx rfl hsheet (by rw [hpc]; rfl) rfl
      ⟨ms, mark, hmarks, rfl, ?_⟩ (h.holds_stay (by rw [hpc]; rfl))⟩
    have hmarks' : x.marks.map BitVec.toNat = ms ++ [mark] :=
      (congrArg Sheet.marks hnow).trans hmarks
    have hdropped := NativeStack.marks_dropped hmarks'
    calc ({ x with frameIndex := ms.length } : NativeStack Thread).sheet
      _ = { x.sheet with marks := ms } := by simp only [NativeStack.sheet, hdropped]
      _ = { sheet with offset := mark, marks := ms } := by rw [hnow]
  | kept hpc hx hrel =>
    obtain ⟨a', hnext, hserves⟩ := h.kept hc hpc hx hrel
    refine ⟨a', ?_, hserves⟩
    simp only [commit, hpc]
    exact hnext
  | @releasing vm r x hpc hx hshared =>
    obtain ⟨sheet, hsheet⟩ := h.exists_sheet hx
    have hstage := (h.stage r x sheet hx hsheet).1 t (by rw [hpc]; rfl)
    rw [hpc] at hstage
    obtain ⟨ms, mark, hmarks, hlen, hnow⟩ := hstage
    obtain rfl := List.length_eq_zero_iff.mp hlen.symm
    have hshared' : sheet.shared = true := by
      rw [← hshared]; exact (congrArg Sheet.shared hnow).symm
    exact ⟨a, by simp [commit, hpc, Runs.Follows],
      h.inside hc hx (same hx) hsheet (by rw [hpc]; rfl) rfl
      ⟨mark, hmarks, hshared', hnow⟩ (h.holds_stay (by rw [hpc]; rfl))⟩
  | @unbound vm r hpc =>
    have hb : s.threadStack.lookup t = some r := hc.binding_of hpc (by simp) rfl
    have hp : place r = .bound t := hc.at_place (.bound hb)
    have hx := List.getElem?_eq_getElem (hc.lt_length (show place r ≠ .nowhere by simp [hp]))
    obtain ⟨sheet, hsheet⟩ := h.exists_sheet hx
    have hstage := (h.stage r _ sheet hx hsheet).1 t (by rw [hpc]; rfl)
    rw [hpc] at hstage
    have hheld : a.holds t = some r := h.holds_of_binding hb
    have hholds : ∀ t', a.holds t' = State.held { s with
        threadStack := s.threadStack.erase t
        running := s.running.assign t (.disowning r) } t' := by
      intro t'
      rw [← h.holds_update (t := t) (q := some r) (fun t' ht' => AList.lookup_erase_ne ht') ?_ t',
        ← hheld, Function.update_eq_self]
      rw [AList.lookup_erase]
      rfl
    exact ⟨a, by simp [commit, hpc, Runs.Follows],
      h.inside hc hx (same hx) hsheet (by rw [hpc]; rfl) rfl hstage hholds⟩
  | @disowned vm r x hpc hx =>
    obtain ⟨sheet, hsheet⟩ := h.exists_sheet hx
    have hstage := (h.stage r x sheet hx hsheet).1 t (by rw [hpc]; rfl)
    rw [hpc] at hstage
    exact ⟨a, by simp [commit, hpc, Runs.Follows],
      h.inside hc hx rfl hsheet (by rw [hpc]; rfl) rfl hstage (h.holds_stay (by rw [hpc]; rfl))⟩
  | @cached vm r hpc hroom =>
    obtain ⟨a', hnext, hserves⟩ := h.released hc hpc
    rw [if_pos hroom] at hserves
    refine ⟨a', ?_, hserves⟩
    simp only [commit, hpc]
    exact hnext
  | @discarded vm r hpc hroom =>
    obtain ⟨a', hnext, hserves⟩ := h.released hc hpc
    rw [if_neg (Nat.not_lt.mpr hroom)] at hserves
    refine ⟨a', ?_, hserves⟩
    simp only [commit, hpc]
    exact hnext
  | exited hpc =>
    refine ⟨_, ?_, h.exited hpc⟩
    simp only [commit, hpc]
    exact .exited

theorem step (h : Serves s a) (hc : Custody cfg s place) (hh : Histories cfg s) {l : Label Thread}
    (hs : s.step cfg l = some (out, s')) :
    ∃ a', Runs.Follows (Service.Next cfg) a (commit cfg ⟨s, l, out⟩) a' ∧ Serves s' a' := by
  rcases step_cases hs with ⟨t, act, rfl, hlive, -, hm⟩ | ⟨i, c, rfl, -, -, -, -, rfl⟩
  · exact h.moves hc hh hlive hm
  · exact ⟨a, rfl, h.length, h.stage, h.holds, h.free⟩

end Serves

/-! ## The answers -/

/-- The service that a state is, when no call is in progress. -/
def State.service (s : State Thread) : Service Thread where
  sheets := s.objects.map NativeStack.sheet
  holds t := s.threadStack.lookup t
  free := s.cachePool

/-- What a thread gets for a call; `pushStack` does not return the stack it got. -/
def Event.answer (t : Thread) (e : Event Thread) : Option Outcome :=
  if e.thread = t then
    match e.request, e.outcome with
    | .getStack true, .stack _ => none
    | _, out => some out
  else none

/-- What the calls of `t` returned or threw in a run. -/
def answers (t : Thread) (trace : Trace Thread) : List Outcome :=
  trace.filterMap fun e =>
    match e.label with
    | .thread t' _ => if t' = t ∧ e.outcome ≠ .running then some e.outcome else none
    | .clean _ => none

/-- The answer of a `getStack` that has its stack and still has to return it. -/
def Pc.pending : Pc → List Outcome
  | .registering r _ false | .setting r false => [.stack r]
  | _ => []

section Answers

variable {cfg : Config Thread} {s s' : State Thread} {place : Nat → Place Thread} {t t' : Thread}
  {act : Act} {out : Outcome} {trace : Trace Thread}

theorem outcome_of_ne (res : Except Exn NativeStack.Value) : Outcome.of res ≠ .running := by
  cases res <;> simp [Outcome.of]

/-- What `t` is answered at a step of its own. -/
theorem answers_thread (trace : Trace Thread) (s : State Thread) (act : Act) (out : Outcome) :
    answers t (trace ++ [⟨s, .thread t act, out⟩]) =
      answers t trace ++ if out = .running then [] else [out] := by
  rw [answers, List.filterMap_append]
  by_cases hout : out = .running <;> simp [answers, hout]

theorem answers_other (trace : Trace Thread) (s : State Thread) (act : Act) (out : Outcome)
    (ht' : t' ≠ t) :
    answers t' (trace ++ [⟨s, .thread t act, out⟩]) = answers t' trace := by
  rw [answers, List.filterMap_append]
  simp [answers, Ne.symm ht']

/-- A step is answered when it commits, or by and by. -/
theorem answer_moves (hh : Histories cfg s) (hm : Moves cfg s t act out s') :
    (s.running.pc t).pending ++ ((commit cfg ⟨s, .thread t act, out⟩).bind
      (Event.answer t)).toList =
      (if out = .running then [] else [out]) ++ (s'.running.pc t).pending := by
  cases hm with
  | @hit r thenPush hpc hb =>
    cases thenPush <;> simp [commit, ask, obtained, hpc, hb, Pc.pending, Event.answer]
  | missed thenPush hpc hb => cases thenPush <;> simp [commit, ask, hpc, hb, Pc.pending]
  | @took vm r x pool thenPush hpc hv hpool hx =>
    cases thenPush <;> simp [commit, hpc, hv, hpool, Pc.pending, Event.answer]
  | noMemory hpc => simp [commit, hpc, Pc.pending, Event.answer]
  | @madeShared vm segment thenPush hpc hv hpool hsize =>
    cases thenPush <;> simp [commit, hpc, hv, hpool, Pc.pending, Event.answer]
  | @madeConfined vm segment thenPush hpc hv hsize =>
    cases thenPush <;> simp [commit, hpc, hv, Pc.pending, Event.answer]
  | @registered vm r a thenPush hpc => cases thenPush <;> simp [commit, hpc, Pc.pending]
  | @bound vm r thenPush hpc => cases thenPush <;> simp [commit, obtained, hpc, Pc.pending]
  | @called act r c x hcall hx =>
    cases hcall with
    | push hpc | allocate hpc | pushStack hpc =>
      simp [commit, hpc, Pc.pending, Event.answer, outcome_of_ne]
  | checked hpc hx how | refused hpc hx how | tested hpc hx hindex | empty hpc hx h0
  | restored hpc hx hmark | dropped hpc hx | kept hpc hx hrel | releasing hpc hx hshared
  | unbound hpc | disowned hpc hx | cached hpc hroom
  | discarded hpc hroom => simp [commit, hpc, Pc.pending, Event.answer]
  | @unrestored vm r x prevIndex hpc hx hmark =>
    have hindex := hh.index t r prevIndex x hpc hx
    have hle := (hh.trail r x hx).wf.index_le
    rw [List.getElem?_eq_none_iff] at hmark
    omega
  | exited hpc => simp [commit, hpc, Pc.pending, Event.answer]

theorem pc_moves (hm : Moves cfg s t act out s') (ht' : t' ≠ t) :
    s'.running.pc t' = s.running.pc t' := by
  cases hm with
  | exited hpc => rfl
  | _ => exact Running.pc_assign_ne _ ht' _

theorem commit_thread {e : Event Thread} (h : commit cfg ⟨s, .thread t act, out⟩ = some e) :
    e.thread = t := by
  unfold commit at h
  simp only at h
  split at h <;> grind [Option.map_eq_some_iff]

/-- The answers of `t` so far, and the one to come if its call has taken effect. -/
theorem answers_commits (h : Run cfg trace s) (t : Thread) :
    (Runs.commits (commit cfg) trace).filterMap (Event.answer t) =
      answers t trace ++ (s.running.pc t).pending := by
  induction h with
  | nil => rfl
  | @snoc trace s l out s' run hs ih =>
    obtain ⟨place, hc, hh⟩ := Run.holds run
    have hcommits := Runs.commits_concat (commit cfg) trace ⟨s, l, out⟩
    rw [hcommits, List.filterMap_append, ih]
    rcases step_cases hs with ⟨t', act, rfl, -, -, hm⟩ | ⟨i, c, rfl, -, -, -, rfl, rfl⟩
    · by_cases ht : t' = t
      · subst ht
        have hanswer := answer_moves hh hm
        rw [answers_thread, List.append_assoc, List.append_assoc, ← hanswer]
        congr 2
        cases commit cfg ⟨s, .thread t' act, out⟩ with
        | none => rfl
        | some e => cases hans : e.answer t' <;> simp [hans]
      · rw [answers_other _ _ _ _ (Ne.symm ht), pc_moves hm (Ne.symm ht)]
        cases he : commit cfg ⟨s, .thread t' act, out⟩ with
        | none => rw [Option.toList_none, List.filterMap_nil, List.append_nil]
        | some e =>
          have hnot : e.answer t = none := by
            rw [Event.answer, if_neg (by rw [commit_thread he]; exact ht)]
          simp [hnot]
    · simp [answers, commit]

/-- What a thread is thrown, an event of its own threw. -/
theorem committed_of_threw (h : Run cfg trace s) {x : Exn} (hx : .threw x ∈ answers t trace) :
    ∃ e ∈ Runs.commits (commit cfg) trace, e.thread = t ∧ e.outcome = .threw x := by
  have hmem := List.mem_append_left (s.running.pc t).pending hx
  rw [← answers_commits h, List.mem_filterMap] at hmem
  obtain ⟨e, he, hanswer⟩ := hmem
  unfold Event.answer at hanswer
  split at hanswer
  · next ht =>
    split at hanswer
    · cases hanswer
    · exact ⟨e, he, ht, Option.some.inj hanswer⟩
  · cases hanswer

end Answers

/-- Between calls, the service is the state. -/
theorem Serves.eq_service {s : State Thread} {a : Service Thread} (h : Serves s a)
    (hquiet : s.Quiet) :
    a = s.service := by
  have hpc : ∀ t, (s.running.pc t).transit = none ∧ ∀ before now,
      Stage (s.running.pc t) before now → now = before := by
    intro t
    rcases hquiet t with hidle | ⟨r, hpush⟩
    · rw [hidle]
      exact ⟨rfl, fun _ _ hst => hst⟩
    · rw [hpush]
      exact ⟨rfl, fun _ _ hst => hst⟩
  have hsheets : a.sheets = s.objects.map NativeStack.sheet := by
    refine List.ext_getElem? fun r => ?_
    rw [List.getElem?_map]
    cases hx : s.objects[r]? with
    | none =>
      rw [List.getElem?_eq_none_iff] at hx
      exact List.getElem?_eq_none (h.length ▸ hx)
    | some x =>
      obtain ⟨sheet, hsheet⟩ := h.exists_sheet hx
      obtain ⟨hin, hout⟩ := h.stage r x sheet hx hsheet
      have hsame : x.sheet = sheet := by
        by_cases hr : ∃ t, (s.running.pc t).stack = some r
        · obtain ⟨t, ht⟩ := hr
          exact (hpc t).2 _ _ (hin t ht)
        · exact hout fun t ht => hr ⟨t, ht⟩
      rw [hsheet, Option.map_some, hsame]
  have hholds : a.holds = fun t => s.threadStack.lookup t := by
    funext t
    rw [h.holds, State.held, (hpc t).1, Option.map_none, Option.or_none]
  obtain ⟨sheets, holds, free⟩ := a
  simp only at hsheets hholds
  rw [hsheets, hholds, show free = s.cachePool from h.free]
  rfl

/-- The events of a run are a path of the service, to where the state is. -/
theorem Run.serves {cfg : Config Thread} {trace : Trace Thread} {s : State Thread}
    (h : Run cfg trace s) :
    ∃ a, Runs.Path (Service.Next cfg) (Service.init Thread) (Runs.commits (commit cfg) trace) a ∧
      Serves s a := by
  obtain ⟨a, path, -, hserves⟩ := h.simulate (commit cfg)
    (fun s a => (∃ place, Custody cfg s place ∧ Histories cfg s) ∧ Serves s a)
    ⟨⟨_, .init cfg, .init cfg⟩, .init⟩ <| by
      rintro s l out s' a ⟨⟨place, hc, hh⟩, hserves⟩ hs
      obtain ⟨a', hfollows, hserves'⟩ := hserves.step hc hh hs
      obtain ⟨place', hc'⟩ := hc.step hs
      exact ⟨a', hfollows, ⟨place', hc', hh.step hc hs⟩, hserves'⟩
  exact ⟨a, path, hserves⟩

/-- **The calls are atomic.** However the statements of the threads interleave,
their calls get the answers of the service, each call in one step, taken while
it runs: the events that the steps of a run commit are a path of the service,
and there each thread has the answers it got so far, besides the stack a
`getStack` is about to return. Between calls the service is the state. -/
theorem calls_atomic {cfg : Config Thread} {trace : Trace Thread} {s : State Thread}
    (h : Run cfg trace s) :
    ∃ a, Runs.Path (Service.Next cfg) (Service.init Thread) (Runs.commits (commit cfg) trace) a ∧
      (∀ t, (Runs.commits (commit cfg) trace).filterMap (Event.answer t) =
        answers t trace ++ (s.running.pc t).pending) ∧
      (s.Quiet → a = s.service) := by
  obtain ⟨a, path, hserves⟩ := Run.serves h
  exact ⟨a, path, answers_commits h, hserves.eq_service⟩

/-- One thread closes its stack after another found that it has none, and before
the other looks into `cachePool`. -/
theorem calls_atomic_passed_on :
    let cfg : Config Nat := ⟨64, by decide, 8, fun _ => true, 99⟩
    ∃ trace s, Run cfg trace s ∧ s.Quiet ∧ s.threadStack.lookup 1 = some 0 ∧
      ∃ a, Runs.Path (Service.Next cfg) (Service.init Nat) (Runs.commits (commit cfg) trace) a ∧
        (∀ t, (Runs.commits (commit cfg) trace).filterMap (Event.answer t) =
          answers t trace ++ (s.running.pc t).pending) ∧
        (s.Quiet → a = s.service) := by
  intro cfg
  let next (t : Nat) : Label Nat :=
    .thread t (.next ⟨fun _ => true, some ⟨0x1000, 64, by decide, by decide⟩⟩)
  obtain ⟨s, hs⟩ : ∃ s, Runs.final (State.step cfg) (State.init Nat)
      (.thread 0 .pushStack :: List.replicate 3 (next 0) ++ [.thread 0 (.close 0),
        .thread 1 .getStack] ++
        List.replicate 7 (next 0) ++ List.replicate 2 (next 1)) = some s := ⟨_, rfl⟩
  obtain ⟨trace, hrun⟩ : ∃ trace, Run cfg trace s := Runs.exists_run hs
  have hquiet : s.Quiet := by
    cases hs
    exact quiet_of_empty rfl
  have hbound : s.threadStack.lookup 1 = some 0 := by
    cases hs
    rfl
  exact ⟨trace, s, hrun, hquiet, hbound, calls_atomic hrun⟩

end Pool

end FfiBenchmark
