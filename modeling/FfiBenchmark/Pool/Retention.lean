/-
The native memory kept for virtual threads.

`sharedArena` never frees a segment, so a segment is of use only as long as its
stack can be found: in `cachePool`, or bound to a live thread. Two steps lose
one: a `close` that finds `cachePool` full, and the end of a virtual thread with
a stack still bound. The segments are exactly the stacks in `cachePool`, the
stacks bound to virtual threads, those in transit, and the lost ones.
-/
import FfiBenchmark.Lib.Table
import FfiBenchmark.Pool.Ownership

namespace FfiBenchmark.Pool

open Table

variable {Thread : Type}

/-- A virtual thread with a stack in transit. -/
def carries (cfg : Config Thread) (t : Thread) (pc : Pc) : Bool :=
  cfg.isVirtual t && pc.transit.isSome

theorem carries_none {cfg : Config Thread} {pc : Pc} (t : Thread) (h : pc.transit = none) :
    carries cfg t pc = false := by
  rw [carries, h]
  exact Bool.and_false _

theorem carries_some {cfg : Config Thread} {pc : Pc} {p : Nat × Bool} (t : Thread)
    (h : pc.transit = some p) :
    carries cfg t pc = cfg.isVirtual t := by
  rw [carries, h]
  exact Bool.and_true _

variable [DecidableEq Thread]

/-- The number of stacks bound to virtual threads, each to its own
(`Exclusive.one_place`); all of these threads are live. -/
def State.bound (cfg : Config Thread) (s : State Thread) : Nat :=
  count (fun t _ => cfg.isVirtual t) s.threadStack

def State.inTransit (cfg : Config Thread) (s : State Thread) : Nat := count (carries cfg) s.running

/-- The step loses the last reference to a stack over a segment of `sharedArena`. -/
def loses (cfg : Config Thread) (e : Runs.Step (State Thread) (Label Thread) Outcome) : Bool :=
  match e.label with
  | .thread t .exit => cfg.isVirtual t && (e.before.threadStack.lookup t).isSome
  | .thread t (.next _) => match e.before.running.pc t with
    | .caching _ => cfg.cacheLimit ≤ e.before.cachePool.length
    | _ => false
  | _ => false

/-- No `getStack` and no `close` is in progress. -/
def State.Quiet (s : State Thread) : Prop :=
  ∀ t, s.running.pc t = .idle ∨ ∃ r, s.running.pc t = .pushing r

theorem count_assign (cfg : Config Thread) (m : Running Thread) (t : Thread) (pc : Pc) :
    count (carries cfg) (m.assign t pc) + (if carries cfg t (m.pc t) then 1 else 0) =
      count (carries cfg) m + if carries cfg t pc then 1 else 0 := by
  have hone : one (carries cfg) t (m.lookup t) = if carries cfg t (m.pc t) then 1 else 0 := by
    unfold Running.pc
    cases m.lookup t with
    | none => exact (congrArg (fun b : Bool => if b then 1 else 0) (carries_none t rfl)).symm
    | some pc => rfl
  rw [← hone, Running.assign]
  split
  · next hidle =>
    rw [count_erase, hidle, carries_none t rfl]
    rfl
  · exact count_insert _ _ _ _

/-- A step keeps the balance, if a lost segment is counted. -/
def Conserved (cfg : Config Thread) (s s' : State Thread) (lost : Bool) : Prop :=
  s'.sharedArena.length + (s.cachePool.length + s.bound cfg + s.inTransit cfg) =
    s.sharedArena.length + (s'.cachePool.length + s'.bound cfg + s'.inTransit cfg) +
    if lost then 1 else 0

section Steps

variable {cfg : Config Thread} {s s' : State Thread} {place : Nat → Place Thread} {t : Thread}
  {r : Nat} {pc : Pc} {objects : List (NativeStack Thread)} {arenas : List (Arena Thread)}
  {cleanables : List Cleanable}

/-- A step that takes nothing in hand and lets nothing go. -/
theorem conserved_stay (hcarries : carries cfg t pc = carries cfg t (s.running.pc t)) :
    Conserved cfg s
      { s with
        objects := objects
        arenas := arenas
        cleanables := cleanables
        running := s.running.assign t pc }
      false := by
  have hassign := count_assign cfg s.running t pc
  rw [hcarries] at hassign
  simp only [Conserved, State.bound, State.inTransit, Bool.false_eq_true, if_false]
  omega

/-- A shared stack is in the hands of a virtual thread. -/
theorem isVirtual_of_caching (h : Custody cfg s place) (hpc : s.running.pc t = .caching r) :
    cfg.isVirtual t = true := by
  obtain ⟨x, hx, hshared⟩ := (h.thread t).shared r (by rw [hpc]; rfl)
  rw [← hshared, (h.stack r).kind x t hx (h.holder_of_stack (by rw [hpc]; rfl))]

theorem conserved_moves {act : Act} {out : Outcome} (h : Custody cfg s place)
    (hm : Moves cfg s t act out s') :
    Conserved cfg s s' (loses cfg ⟨s, .thread t act, out⟩) := by
  cases hm with
  | noMemory hpc | registered hpc | tested hpc _ _ | empty hpc _ _ | restored hpc _ _
  | unrestored hpc _ _ | dropped hpc _ | kept hpc _ _ | releasing hpc _ _ | disowned hpc _ =>
    simp only [loses, hpc]
    exact conserved_stay (by rw [hpc]; rfl)
  | hit thenPush hpc hb => cases thenPush <;> exact conserved_stay (by rw [hpc]; rfl)
  | missed thenPush hpc hb => cases thenPush <;> exact conserved_stay (by rw [hpc]; rfl)
  | @took vm r x pool thenPush hpc hv hpool hx =>
    have hassign := count_assign cfg s.running t (.setting r thenPush)
    rw [hpc, carries_none t rfl, carries_some t rfl, hv] at hassign
    simp only [Bool.false_eq_true, if_false, if_true] at hassign
    simp only [Conserved, loses, hpc, State.bound, State.inTransit, hpool, List.length_append,
      List.length_singleton, Bool.false_eq_true, if_false]
    omega
  | @madeShared vm segment thenPush hpc hv hpool hsize =>
    have hassign := count_assign cfg s.running t (.setting s.objects.length thenPush)
    rw [hpc, carries_none t rfl, carries_some t rfl, hv] at hassign
    simp only [Bool.false_eq_true, if_false, if_true] at hassign
    simp only [Conserved, loses, hpc, State.bound, State.inTransit, List.length_append,
      List.length_singleton, Bool.false_eq_true, if_false]
    omega
  | madeConfined hpc hv hsize =>
    simp only [loses, hpc]; exact conserved_stay (by rw [carries, carries, hv]; rfl)
  | @bound vm r thenPush hpc =>
    have hassign := count_assign cfg s.running t (obtained r thenPush).2
    have hinsert := count_insert (fun t _ => cfg.isVirtual t) s.threadStack t r
    have hnone : s.threadStack.lookup t = none := h.binding_of hpc (by simp) rfl
    have hout : (obtained r thenPush).2.transit = none := by cases thenPush <;> rfl
    rw [hpc, carries_some t rfl, carries_none t hout] at hassign
    simp only [Bool.false_eq_true, if_false] at hassign
    simp only [hnone, one_none, one_some] at hinsert
    simp only [Conserved, loses, hpc, State.bound, State.inTransit, Bool.false_eq_true, if_false]
    omega
  | @called act r c x hcall hx =>
    cases hcall with
    | push hpc | allocate hpc => exact conserved_stay (by rw [hpc])
    | pushStack hpc => simp only [loses, hpc]; exact conserved_stay (by rw [hpc]; rfl)
  | checked hpc hx how => exact conserved_stay (by rw [hpc]; rfl)
  | refused hpc hx how => exact conserved_stay (by rw [hpc])
  | @unbound vm r hpc =>
    have hassign := count_assign cfg s.running t (.disowning r)
    have herase := count_erase (fun t _ => cfg.isVirtual t) s.threadStack t
    have hb : s.threadStack.lookup t = some r := h.binding_of hpc (by simp) rfl
    rw [hpc, carries_none t rfl, carries_some t rfl] at hassign
    simp only [Bool.false_eq_true, if_false] at hassign
    simp only [hb, one_some] at herase
    simp only [Conserved, loses, hpc, State.bound, State.inTransit, Bool.false_eq_true, if_false]
    omega
  | @cached vm r hpc hroom =>
    have hassign := count_assign cfg s.running t .idle
    rw [hpc, carries_some t rfl, isVirtual_of_caching h hpc, carries_none t rfl] at hassign
    simp only [Bool.false_eq_true, if_false, if_true] at hassign
    simp only [Conserved, loses, hpc, State.bound, State.inTransit, List.length_append,
      List.length_singleton, decide_eq_false (Nat.not_le.mpr hroom), Bool.false_eq_true, if_false]
    omega
  | @discarded vm r hpc hroom =>
    have hassign := count_assign cfg s.running t .idle
    rw [hpc, carries_some t rfl, isVirtual_of_caching h hpc, carries_none t rfl] at hassign
    simp only [Bool.false_eq_true, if_false, if_true] at hassign
    simp only [Conserved, loses, hpc, State.bound, State.inTransit, decide_eq_true hroom, if_true]
    omega
  | exited hpc =>
    have herase := count_erase (fun t _ => cfg.isVirtual t) s.threadStack t
    simp only [Conserved, loses, State.bound, State.inTransit]
    rcases Option.eq_none_or_eq_some (s.threadStack.lookup t) with hb | ⟨r, hb⟩
    · simp only [hb, one_none] at herase
      simp only [hb, Option.isSome_none, Bool.and_false, Bool.false_eq_true, if_false]
      omega
    · simp only [hb, one_some] at herase
      simp only [hb, Option.isSome_some, Bool.and_true]
      omega

end Steps

variable {cfg : Config Thread} {trace : Trace Thread} {s : State Thread}

/-- **Every segment is accounted for**: with a stack in `cachePool`, bound, in
transit, or lost at a step of the run. -/
theorem Run.balance (h : Run cfg trace s) :
    s.sharedArena.length =
      s.cachePool.length + s.bound cfg + s.inTransit cfg + trace.countP (loses cfg) := by
  induction h with
  | nil => rfl
  | @snoc trace s l out s' run hs ih =>
    obtain ⟨place, hc⟩ := Run.custody run
    have hcons : Conserved cfg s s' (loses cfg ⟨s, l, out⟩) := by
      rcases step_cases hs with ⟨t, act, rfl, -, -, hm⟩ | ⟨i, c, rfl, -, -, -, -, rfl⟩
      · exact conserved_moves hc hm
      · simp only [Conserved, loses, State.bound, State.inTransit, Bool.false_eq_true, if_false]
        omega
    simp only [Conserved] at hcons
    rw [List.countP_append, List.countP_singleton]
    omega

theorem quiet_of_empty (h : s.running.entries = []) : s.Quiet := by
  intro t
  left
  rw [Running.pc, AList.lookup, h]
  rfl

/-- Outside of `getStack` and `close`, nothing is in transit. -/
theorem inTransit_eq_zero (h : s.Quiet) (cfg : Config Thread) : s.inTransit cfg = 0 := by
  refine count_eq_zero fun t pc hlookup => carries_none t ?_
  have hpc : s.running.pc t = pc := by rw [Running.pc, hlookup]; rfl
  rcases h t with hidle | ⟨r, hpush⟩
  · rw [← hpc, hidle]
    rfl
  · rw [← hpc, hpush]
    rfl

/-- **No segment is lost just when no step of the run lost one**: no `close`
found `cachePool` full, and no virtual thread ended with a stack bound. Then
there are no more segments than `CACHE_LIMIT` and the stacks bound to live
virtual threads; otherwise there are as many more than the stacks that can still
be found as there were such steps. -/
theorem segments_retained (h : Run cfg trace s) (hquiet : s.Quiet) :
    (s.sharedArena.length = s.cachePool.length + s.bound cfg ↔ ∀ e ∈ trace, loses cfg e = false) ∧
    ((∀ e ∈ trace, loses cfg e = false) → s.sharedArena.length ≤ cfg.cacheLimit + s.bound cfg) ∧
    s.sharedArena.length = s.cachePool.length + s.bound cfg + trace.countP (loses cfg) := by
  obtain ⟨place, hc⟩ := Run.custody h
  have hbalance := h.balance
  rw [inTransit_eq_zero hquiet cfg] at hbalance
  have hnone : trace.countP (loses cfg) = 0 ↔ ∀ e ∈ trace, loses cfg e = false := by
    rw [List.countP_eq_zero]
    simp only [Bool.not_eq_true]
  refine ⟨?_, fun hkeep => ?_, by omega⟩
  · rw [← hnone]
    omega
  · have := hnone.mpr hkeep
    have := hc.limit
    omega

/-- A thread that closed its stack before it ended, and one that did not yet. -/
theorem segments_retained_pooled :
    let cfg : Config Nat := ⟨64, by decide, 8, fun _ => true, 99⟩
    ∃ trace s, Run cfg trace s ∧ s.Quiet ∧ s.exited = [0] ∧
      (s.sharedArena.length = s.cachePool.length + s.bound cfg ↔ ∀ e ∈ trace, loses cfg e = false) ∧
      ((∀ e ∈ trace, loses cfg e = false) → s.sharedArena.length ≤ cfg.cacheLimit + s.bound cfg) ∧
      s.sharedArena.length = s.cachePool.length + s.bound cfg + trace.countP (loses cfg) := by
  intro cfg
  let next (t : Nat) : Label Nat :=
    .thread t (.next ⟨fun _ => true, some ⟨0x1000, 64, by decide, by decide⟩⟩)
  obtain ⟨s, hs⟩ : ∃ s, Runs.final (State.step cfg) (State.init Nat)
      (.thread 0 .pushStack :: List.replicate 3 (next 0) ++
        .thread 1 .pushStack :: List.replicate 3 (next 1) ++
        .thread 0 (.close 0) :: List.replicate 7 (next 0) ++ [.thread 0 .exit]) = some s := ⟨_, rfl⟩
  obtain ⟨trace, hrun⟩ : ∃ trace, Run cfg trace s := Runs.exists_run hs
  have hquiet : s.Quiet := by
    cases hs
    exact quiet_of_empty rfl
  have hexited : s.exited = [0] := by
    cases hs
    rfl
  exact ⟨trace, s, hrun, hquiet, hexited, segments_retained hrun hquiet⟩

/-- Nine virtual threads that each end with a stack bound leave nine segments,
although `CACHE_LIMIT` is eight and no thread is left. -/
theorem segments_not_retained :
    let cfg : Config Nat := ⟨64, by decide, 8, fun _ => true, 99⟩
    ¬ ∀ trace s, Run cfg trace s → s.Quiet →
      s.sharedArena.length ≤ cfg.cacheLimit + s.bound cfg := by
  intro cfg hretained
  let next (t : Nat) : Label Nat :=
    .thread t (.next ⟨fun _ => true, some ⟨0x1000, 64, by decide, by decide⟩⟩)
  obtain ⟨s, hs⟩ : ∃ s, Runs.final (State.step cfg) (State.init Nat)
      ((List.range 9).flatMap fun t => [.thread t .getStack, next t, next t, .thread t .exit]) =
      some s := ⟨_, rfl⟩
  obtain ⟨trace, hrun⟩ : ∃ trace, Run cfg trace s := Runs.exists_run hs
  have hquiet : s.Quiet := by
    cases hs
    exact quiet_of_empty rfl
  have hlength : s.sharedArena.length = 9 ∧ s.bound cfg = 0 := by
    cases hs
    exact ⟨rfl, rfl⟩
  have := hretained trace s hrun hquiet
  rw [hlength.1, hlength.2] at this
  exact absurd this (by decide)

/-! ## The peak -/

/-- The segments that virtual threads have in use: of the stacks bound or in transit. -/
def State.inUse (cfg : Config Thread) (s : State Thread) : Nat := s.bound cfg + s.inTransit cfg

/-- A virtual thread ends with a stack bound. -/
def abandons (cfg : Config Thread) (e : Runs.Step (State Thread) (Label Thread) Outcome) : Bool :=
  match e.label with
  | .thread t .exit => cfg.isVirtual t && (e.before.threadStack.lookup t).isSome
  | _ => false

/-- A segment is made only when `cachePool` is empty. -/
theorem sharedArena_step {s' : State Thread} {l : Label Thread} {out : Outcome}
    (hs : s.step cfg l = some (out, s')) :
    s'.sharedArena = s.sharedArena ∨ s'.cachePool = [] := by
  rcases step_cases hs with ⟨t, act, -, -, -, hm⟩ | ⟨i, c, -, -, -, -, -, rfl⟩
  · cases hm with
    | madeShared hpc hv hpool hsize => exact .inr hpool
    | _ => exact .inl rfl
  · exact .inl rfl

/-- A stack on its way to `cachePool` is in use. -/
theorem inUse_pos {place : Nat → Place Thread} {t : Thread} {r : Nat} (h : Custody cfg s place)
    (hpc : s.running.pc t = .caching r) : 0 < s.inUse cfg := by
  have hassign := count_assign cfg s.running t .idle
  rw [hpc, carries_some t rfl, isVirtual_of_caching h hpc, carries_none t rfl] at hassign
  simp only [Bool.false_eq_true, if_false, if_true] at hassign
  simp only [State.inUse, State.inTransit]
  omega

theorem loses_iff {place : Nat → Place Thread} {l : Label Thread} {out : Outcome}
    (h : Custody cfg s place) (hlost : loses cfg ⟨s, l, out⟩ = true) :
    abandons cfg ⟨s, l, out⟩ = true ∨ 0 < s.inUse cfg ∧ cfg.cacheLimit ≤ s.cachePool.length := by
  unfold loses at hlost
  split at hlost
  · next t hl =>
    obtain rfl : l = .thread t .exit := hl
    exact .inl hlost
  · split at hlost
    · next r hpc => exact .inr ⟨inUse_pos h hpc, of_decide_eq_true hlost⟩
    · cases hlost
  · cases hlost

theorem countP_loses (e : Runs.Step (State Thread) (Label Thread) Outcome) :
    (trace ++ [e]).countP (loses cfg) =
      trace.countP (loses cfg) + if loses cfg e then 1 else 0 := by
  rw [List.countP_append, List.countP_singleton]

theorem Run.made_le (h : Run cfg trace s) {n : Nat} (hbefore : ∀ e ∈ trace, e.before.inUse cfg ≤ n)
    (hnow : s.inUse cfg ≤ n) :
    s.sharedArena.length ≤ n + trace.countP (loses cfg) := by
  induction h with
  | nil => exact Nat.zero_le _
  | @snoc trace s l out s' run hs ih =>
    have hle := ih (fun e he => hbefore e (List.mem_append_left _ he))
      (hbefore ⟨s, l, out⟩ (by simp))
    rcases sharedArena_step hs with hsame | hempty
    · rw [hsame, countP_loses]
      omega
    · have hbalance := Run.balance (run.snoc hs)
      rw [hempty] at hbalance
      simp only [State.inUse] at hnow
      simp only [List.length_nil] at hbalance
      omega

theorem Run.none_lost (h : Run cfg trace s) {n : Nat}
    (hbefore : ∀ e ∈ trace, e.before.inUse cfg ≤ n) (hlimit : n ≤ cfg.cacheLimit)
    (hkeep : ∀ e ∈ trace, abandons cfg e = false) :
    trace.countP (loses cfg) = 0 := by
  induction h with
  | nil => rfl
  | @snoc trace s l out s' run hs ih =>
    have hin : s.inUse cfg ≤ n := hbefore ⟨s, l, out⟩ (by simp)
    have hbefore := fun e he => hbefore e (List.mem_append_left _ he)
    have hzero := ih hbefore fun e he => hkeep e (List.mem_append_left _ he)
    rw [countP_loses, hzero]
    obtain ⟨place, hc⟩ := Run.custody run
    cases hlost : loses cfg ⟨s, l, out⟩ with
    | false => rfl
    | true =>
      rcases loses_iff hc hlost with habandons | ⟨hpos, hfull⟩
      · rw [hkeep ⟨s, l, out⟩ (by simp)] at habandons
        cases habandons
      · have hmade := Run.made_le run hbefore hin
        have hbalance := Run.balance run
        simp only [State.inUse] at hin hpos
        omega

/-- **Segments are reused.** There are never more segments than were in use at
one time, and the lost ones. As long as no more than `CACHE_LIMIT` are in use at
one time, and no virtual thread ends with a stack bound, none is lost. -/
theorem segments_le_peak (h : Run cfg trace s) {n : Nat}
    (hbefore : ∀ e ∈ trace, e.before.inUse cfg ≤ n) (hnow : s.inUse cfg ≤ n) :
    s.sharedArena.length ≤ n + trace.countP (loses cfg) ∧
      (n ≤ cfg.cacheLimit → (∀ e ∈ trace, abandons cfg e = false) → trace.countP (loses cfg) = 0) :=
  ⟨h.made_le hbefore hnow, fun hlimit hkeep => h.none_lost hbefore hlimit hkeep⟩

/-- Two virtual threads, one after the other on one segment. -/
theorem segments_le_peak_reused :
    let cfg : Config Nat := ⟨64, by decide, 8, fun _ => true, 99⟩
    ∃ trace s, Run cfg trace s ∧ s.exited.length = 2 ∧
      s.sharedArena.length ≤ 1 + trace.countP (loses cfg) ∧
      (1 ≤ cfg.cacheLimit → (∀ e ∈ trace, abandons cfg e = false) →
        trace.countP (loses cfg) = 0) := by
  intro cfg
  let next (t : Nat) : Label Nat :=
    .thread t (.next ⟨fun _ => true, some ⟨0x1000, 64, by decide, by decide⟩⟩)
  let labels : List (Label Nat) := (List.range 2).flatMap fun t =>
    .thread t .pushStack :: List.replicate 3 (next t) ++
      .thread t (.close 0) :: List.replicate 7 (next t) ++ [.thread t .exit]
  have hfacts : (Runs.record (State.step cfg) (State.init Nat) labels).map (fun r =>
      decide (r.2.exited.length = 2 ∧ r.2.inUse cfg ≤ 1 ∧
        ∀ e ∈ r.1, e.before.inUse cfg ≤ 1)) = some true := by
    decide +kernel
  obtain ⟨⟨trace, s⟩, hr, hfacts⟩ := Option.map_eq_some_iff.mp hfacts
  obtain ⟨hexited, hnow, hbefore⟩ := of_decide_eq_true hfacts
  have hrun : Run cfg trace s := Runs.run_record hr
  exact ⟨trace, s, hrun, hexited, segments_le_peak hrun hbefore hnow⟩

end FfiBenchmark.Pool
