/-
The release of the stacks of platform threads.

Each has a confined arena of its own, and `CLEANER` runs `arena::close` when the
stack is unreachable. The order of things is right: an action runs once, after
the last reference to its stack is gone, and no reference comes back. But a
confined arena is closed by the thread that made it or not at all, the Cleaner
has a thread of its own, and what the action throws there is dropped. So no
arena is ever closed, and each action that runs leaves a segment behind.
-/
import FfiBenchmark.Lib.Table
import FfiBenchmark.Pool.Histories

namespace FfiBenchmark.Pool

open NativeStack (exec_effect)

variable {Thread : Type}

/-- The `final` fields. -/
def finals (x : NativeStack Thread) : MemorySegment × Bool := (x.segment, x.shared)

/-- `segment` of the stack `r`, which is not shared, is allocated from the arena `i`. -/
def State.Holds (s : State Thread) (r i : Nat) : Prop :=
  ∃ segment, (s.objects[r]?).map finals = some (segment, false) ∧
    (s.arenas[i]?).map Arena.segment = some segment

/-- No stack and no arena goes away or gets another segment. -/
structure Extends (s s' : State Thread) : Prop where
  objects : ∀ (r : Nat) fields, (s.objects[r]?).map finals = some fields →
    (s'.objects[r]?).map finals = some fields
  arenas : ∀ (i : Nat) segment, (s.arenas[i]?).map Arena.segment = some segment →
    (s'.arenas[i]?).map Arena.segment = some segment

theorem State.Holds.mono {s s' : State Thread} {r i : Nat} (h : s.Holds r i) (hext : Extends s s') :
    s'.Holds r i := by
  obtain ⟨segment, hx, ha⟩ := h
  exact ⟨segment, hext.objects r _ hx, hext.arenas i _ ha⟩

theorem State.Holds.lt_length {s : State Thread} {r i : Nat} (h : s.Holds r i) :
    r < s.objects.length := by
  obtain ⟨segment, hx, -⟩ := h
  rw [Option.map_eq_some_iff] at hx
  obtain ⟨x, hx, -⟩ := hx
  exact (List.getElem?_eq_some_iff.mp hx).1

theorem map_append_of_some {α β : Type} {f : α → β} {l l' : List α} {i : Nat} {b : β}
    (h : (l[i]?).map f = some b) :
    ((l ++ l')[i]?).map f = some b := by
  have hlt : i < l.length := by
    rw [Option.map_eq_some_iff] at h
    obtain ⟨a, ha, -⟩ := h
    exact (List.getElem?_eq_some_iff.mp ha).1
  rwa [List.getElem?_append_left hlt]

theorem extends_of_objects {s s' : State Thread} (harenas : s'.arenas = s.arenas)
    (hobjects : ∀ r : Nat, (s'.objects[r]?).map finals = (s.objects[r]?).map finals) :
    Extends s s' where
  objects r fields hx := by rwa [hobjects r]
  arenas i segment ha := by rwa [harenas]

/-! ## Stacks still to be processed -/

/-- The stack of a platform thread. -/
def State.confined (s : State Thread) (r : Nat) : Bool := (s.objects[r]?).any fun x => !x.shared

/-- The number of segments of platform threads' stacks that are not freed. -/
def State.unfreed (s : State Thread) : Nat := s.arenas.countP fun a => !a.closed

/-- The number of platform threads' stacks whose action has not run. -/
def State.unprocessed (s : State Thread) : Nat :=
  (List.range s.objects.length).countP fun r => s.confined r && !s.collected r

/-- The Cleaner runs an action. -/
def cleans (e : Runs.Step (State Thread) (Label Thread) Outcome) : Bool :=
  match e.label with
  | .clean _ => true
  | .thread _ _ => false

section Unprocessed

variable {s s' : State Thread} {r i : Nat}

theorem confined_eq (hext : Extends s s') (hlt : r < s.objects.length) :
    s'.confined r = s.confined r := by
  have hconfined : ∀ s : State Thread, s.confined r = ((s.objects[r]?).map finals).any
      fun fields => !fields.2 := by
    intro s
    rw [Option.any_map]
    rfl
  have hx : (s.objects[r]?).map finals = some (finals s.objects[r]) := by
    rw [List.getElem?_eq_getElem hlt, Option.map_some]
  rw [hconfined, hconfined, hx, hext.objects r _ hx]

theorem State.Holds.confined (h : s.Holds r i) : s.confined r = true := by
  obtain ⟨segment, hx, -⟩ := h
  rw [Option.map_eq_some_iff] at hx
  obtain ⟨x, hx, hfinals⟩ := hx
  have hshared : x.shared = false := congrArg Prod.snd hfinals
  simp [State.confined, hx, hshared]

theorem collected_iff : s.collected r = true ↔ ∃ c ∈ s.cleanables, c.stack = r ∧ c.ran = true := by
  simp [State.collected]

theorem collected_ran {c : Cleanable} (hc : s.cleanables[i]? = some c) (r : Nat) :
    State.collected { s with cleanables := s.cleanables.set i { c with ran := true } } r =
      (s.collected r || decide (c.stack = r)) := by
  obtain ⟨hlt, -⟩ := List.getElem?_eq_some_iff.mp hc
  rw [Bool.eq_iff_iff, Bool.or_eq_true, decide_eq_true_iff, collected_iff, collected_iff]
  constructor
  · rintro ⟨c', hmem, heq, hran⟩
    rcases List.mem_or_eq_of_mem_set hmem with hmem | rfl
    · exact .inl ⟨c', hmem, heq, hran⟩
    · exact .inr heq
  · rintro (⟨c', hmem, heq, hran⟩ | heq)
    · obtain ⟨j, hj⟩ := List.mem_iff_getElem?.mp hmem
      by_cases hij : i = j
      · subst hij
        rw [hc] at hj
        cases hj
        exact ⟨_, List.mem_set hlt _, heq, rfl⟩
      · exact ⟨c', List.mem_of_getElem? (by rw [List.getElem?_set_ne hij]; exact hj), heq, hran⟩
    · exact ⟨_, List.mem_set hlt _, heq, rfl⟩

theorem unprocessed_of (hext : Extends s s') (hcollected : s'.collected = s.collected)
    (hlen : s'.objects.length = s.objects.length) : s'.unprocessed = s.unprocessed := by
  rw [State.unprocessed, hlen, hcollected]
  refine List.countP_congr fun r hr => ?_
  rw [confined_eq hext (List.mem_range.mp hr)]

/-- A stack is made. -/
theorem unprocessed_made (hext : Extends s s') (hcollected : s'.collected = s.collected)
    {x : NativeStack Thread} (hobjects : s'.objects = s.objects ++ [x])
    (hnew : s.collected s.objects.length = false) :
    s'.unprocessed = s.unprocessed + if x.shared then 0 else 1 := by
  have hlast : s'.confined s.objects.length = !x.shared := by simp [State.confined, hobjects]
  have hold : (List.range s.objects.length).countP (fun r => s'.confined r && !s.collected r) =
      s.unprocessed := by
    refine List.countP_congr fun r hr => ?_
    rw [confined_eq hext (List.mem_range.mp hr)]
  rw [State.unprocessed, hcollected, hobjects, List.length_append, List.length_singleton,
    List.range_succ, List.countP_append, hold, List.countP_singleton, hlast, hnew]
  cases x.shared <;> rfl

end Unprocessed

/-! ## What a step keeps -/

variable [DecidableEq Thread] {cfg : Config Thread} {s s' : State Thread}
  {place : Nat → Place Thread} {t : Thread} {act : Act} {out : Outcome} {r i : Nat}

theorem finals_exec {x : NativeStack Thread} (h : x.Wf) {c : NativeStack.Call} (hc : c ≠ .close)
    (t : Thread) :
    finals (Method.fields (NativeStack.exec t c x)) = finals x := by
  have hsegment := (exec_effect h t c).segment
  have hshared : (Method.fields (NativeStack.exec t c x)).shared = x.shared :=
    congrArg Prod.snd (title_exec t hc x)
  rw [finals, finals, hsegment, hshared]

theorem extends_moves (h : Histories cfg s) (hm : Moves cfg s t act out s') : Extends s s' := by
  cases hm with
  | @called act r c x hcall hx =>
    refine extends_of_objects rfl fun r' => ?_
    have hne : c ≠ .close := by cases hcall <;> simp
    exact Table.map_set hx (finals_exec (h.trail r x hx).wf hne t) r'
  | took _ _ _ hx | restored _ hx _ | dropped _ hx | disowned _ hx =>
    exact extends_of_objects rfl fun r' => Table.map_set hx (by rfl) r'
  | madeShared _ _ _ _ => exact ⟨fun _ _ hx => map_append_of_some hx, fun _ _ ha => ha⟩
  | madeConfined _ _ _ =>
    exact ⟨fun _ _ hx => map_append_of_some hx, fun _ _ ha => map_append_of_some ha⟩
  | _ => exact extends_of_objects rfl fun _ => rfl

/-! ## References -/

theorem reachable_iff : s.Reachable r ↔
    (∃ t, s.threadStack.lookup t = some r) ∨ r ∈ s.cachePool ∨
      ∃ t, (s.running.pc t).stack = some r := by
  have hbound : (∃ e ∈ s.threadStack.entries, e.2 = r) ↔ ∃ t, s.threadStack.lookup t = some r := by
    constructor
    · rintro ⟨⟨t, r'⟩, he, rfl⟩
      exact ⟨t, AList.mem_lookup_iff.mpr he⟩
    · rintro ⟨t, hb⟩
      exact ⟨⟨t, r⟩, AList.mem_lookup_iff.mp hb, rfl⟩
  have hrunning : (∃ e ∈ s.running.entries, e.2.stack = some r) ↔
      ∃ t, (s.running.pc t).stack = some r := by
    constructor
    · rintro ⟨⟨t, pc⟩, he, hr⟩
      have hpc : s.running.lookup t = some pc := AList.mem_lookup_iff.mpr he
      exact ⟨t, by rw [Running.pc, hpc]; exact hr⟩
    · rintro ⟨t, hr⟩
      cases hpc : s.running.lookup t with
      | none =>
        rw [Running.pc, hpc] at hr
        cases hr
      | some pc =>
        rw [Running.pc, hpc] at hr
        exact ⟨⟨t, pc⟩, AList.mem_lookup_iff.mp hpc, hr⟩
  rw [State.Reachable, hbound, hrunning]

/-- Something refers to the stack, or it is still to be made. -/
def State.Known (s : State Thread) (r : Nat) : Prop := s.Reachable r ∨ s.objects.length ≤ r

theorem known_of_bound (hb : s.threadStack.lookup t = some r) : s.Known r :=
  .inl (reachable_iff.mpr (.inl ⟨t, hb⟩))

theorem known_of_erase {t' : Thread} (hb : (s.threadStack.erase t).lookup t' = some r) :
    s.Known r := by
  rw [lookup_erase_ite] at hb
  split at hb
  · cases hb
  · exact known_of_bound hb

theorem known_of_pooled (hmem : r ∈ s.cachePool) : s.Known r :=
  .inl (reachable_iff.mpr (.inr (.inl hmem)))

theorem known_of_stack (hr : (s.running.pc t).stack = some r) : s.Known r :=
  .inl (reachable_iff.mpr (.inr (.inr ⟨t, hr⟩)))

theorem known_of_step (hr : s'.Reachable r)
    (hbound : ∀ t r, s'.threadStack.lookup t = some r → s.Known r)
    (hpooled : ∀ r ∈ s'.cachePool, s.Known r)
    (hrunning : ∀ t r, (s'.running.pc t).stack = some r → s.Known r) :
    s.Known r := by
  rcases reachable_iff.mp hr with ⟨t, hb⟩ | hmem | ⟨t, hin⟩
  · exact hbound t r hb
  · exact hpooled r hmem
  · exact hrunning t r hin

theorem known_assign {pc : Pc} (hpc : ∀ r, pc.stack = some r → s.Known r) (t' : Thread) (r : Nat)
    (h : ((s.running.assign t pc).pc t').stack = some r) : s.Known r := by
  rw [Running.pc_assign] at h
  split at h
  · exact hpc r h
  · exact known_of_stack h

/-- A step that binds nothing and pools nothing. -/
theorem known_stay {pc : Pc} {objects : List (NativeStack Thread)}
    {sharedArena : List MemorySegment}
    {arenas : List (Arena Thread)} {cleanables : List Cleanable}
    (hr : State.Reachable { s with
      objects := objects
      sharedArena := sharedArena
      arenas := arenas
      cleanables := cleanables
      running := s.running.assign t pc } r)
    (hpc : ∀ r, pc.stack = some r → s.Known r) : s.Known r :=
  known_of_step hr (fun _ _ hb => known_of_bound hb) (fun _ hmem => known_of_pooled hmem)
    (known_assign hpc)

/-- **No reference comes back**: a step refers to the stacks it did before, or to
one it makes. -/
theorem known_moves (hc : Custody cfg s place) (hlive : t ∉ s.exited)
    (hm : Moves cfg s t act out s') (hr : s'.Reachable r) :
    s.Known r := by
  have hmine : ∀ {pc}, s.running.pc t = pc → ∀ r, pc.stack = some r → s.Known r :=
    fun hpc _ hr => known_of_stack (t := t) (hpc ▸ hr)
  cases hm with
  | missed | noMemory | refused | empty | unrestored | kept | discarded | called =>
    exact known_stay hr (by simp [Pc.stack])
  | registered hpc | tested hpc | restored hpc | dropped hpc | releasing hpc | disowned hpc =>
    exact known_stay hr fun q hq => hmine hpc q hq
  | @hit r' thenPush hpc hb =>
    refine known_stay hr fun q hq => ?_
    cases thenPush <;> cases hq
    exact known_of_bound hb
  | @took vm r' x pool thenPush hpc hv hpool hx =>
    have hpooled : ∀ q ∈ pool ++ [r'], s.Known q := fun q hq => known_of_pooled (hpool ▸ hq)
    refine known_of_step hr (fun _ _ hb => known_of_bound hb) (fun q hq => ?_)
      (known_assign fun q hq => ?_)
    · exact hpooled q (List.mem_append_left _ hq)
    · cases hq
      exact hpooled r' (by simp)
  | madeShared | madeConfined =>
    refine known_stay hr fun q hq => ?_
    cases hq
    exact .inr (Nat.le_refl _)
  | @bound vm r' thenPush hpc =>
    have hnew : s.Known r' := known_of_stack (t := t) (by rw [hpc]; rfl)
    refine known_of_step hr (fun t' q hq => ?_) (fun _ hmem => known_of_pooled hmem)
      (known_assign fun q hq => ?_)
    · rw [lookup_insert_ite] at hq
      split at hq
      · cases hq
        exact hnew
      · exact known_of_bound hq
    · cases thenPush <;> cases hq
      exact hnew
  | @checked r' x hpc hx how =>
    -- the owner outside of methods has the stack bound
    refine known_stay hr fun q hq => ?_
    cases hq
    rcases hc.of_owner hlive hx how with hb | hin
    · exact known_of_bound hb
    · rw [hpc] at hin
      cases hin
  | @unbound vm r' hpc =>
    exact known_of_step hr (fun _ _ hb => known_of_erase hb) (fun _ hmem => known_of_pooled hmem)
      (known_assign fun q hq => hmine hpc q hq)
  | @cached vm r' hpc hroom =>
    refine known_of_step hr (fun _ _ hb => known_of_bound hb) (fun q hq => ?_)
      (known_assign (by simp [Pc.stack]))
    rw [List.mem_append, List.mem_singleton] at hq
    rcases hq with hq | rfl
    · exact known_of_pooled hq
    · exact known_of_stack (t := t) (by rw [hpc]; rfl)
  | exited hpc =>
    exact known_of_step hr (fun _ _ hb => known_of_erase hb) (fun _ hmem => known_of_pooled hmem)
      (fun _ _ hin => known_of_stack hin)

/-- `arena::close` by a thread that made none of the arenas. -/
theorem close_refused (h : ∀ a ∈ s.arenas, a.creator ≠ t) (i : Nat) :
    s.arenas.modify i (fun a => if a.creator = t then { a with closed := true } else a) =
      s.arenas := by
  refine List.ext_getElem? fun j => ?_
  rw [List.getElem?_modify]
  cases ha : s.arenas[j]? with
  | none => rfl
  | some a =>
    have hcreator := h a (List.mem_of_getElem? ha)
    simp [hcreator]

/-! ## The register of the Cleaner -/

/-- What `CLEANER` has been given, and what has come of it. -/
structure Register (cfg : Config Thread) (s : State Thread) : Prop where
  holds : ∀ c ∈ s.cleanables, s.Holds c.stack c.arena
  pending : ∀ t r a thenPush, s.running.pc t = .registering r a thenPush →
    s.Holds r a ∧ ∀ c ∈ s.cleanables, c.stack ≠ r
  once : (s.cleanables.map Cleanable.stack).Nodup
  unreachable : ∀ c ∈ s.cleanables, c.ran = true → ¬ s.Reachable c.stack
  creator : ∀ a ∈ s.arenas, a.creator ≠ cfg.cleaner
  opened : ∀ a ∈ s.arenas, a.closed = false
  size : ∀ a ∈ s.arenas, a.segment.byteSize = cfg.stackSize

namespace Register

/-- A stack that was processed stays out of reach. -/
theorem unreachable_next (h : Register cfg s) (hknown : ∀ {r}, s'.Reachable r → s.Known r) :
    ∀ c ∈ s.cleanables, c.ran = true → ¬ s'.Reachable c.stack := by
  intro c hc hran hr
  rcases hknown hr with hr | hle
  · exact h.unreachable c hc hran hr
  · exact absurd (h.holds c hc).lt_length (Nat.not_lt.mpr hle)

/-- A step that registers nothing, and makes no arena. -/
theorem stay (h : Register cfg s) (hext : Extends s s') (hknown : ∀ {r}, s'.Reachable r → s.Known r)
    (hcleanables : s'.cleanables = s.cleanables) (harenas : s'.arenas = s.arenas)
    (hpending : ∀ t r a thenPush, s'.running.pc t = .registering r a thenPush →
      s.running.pc t = .registering r a thenPush) : Register cfg s' where
  holds c hc := (h.holds c (hcleanables ▸ hc)).mono hext
  pending t r a thenPush hpc := by
    obtain ⟨hholds, hnew⟩ := h.pending t r a thenPush (hpending t r a thenPush hpc)
    exact ⟨hholds.mono hext, hcleanables ▸ hnew⟩
  once := hcleanables ▸ h.once
  unreachable := hcleanables ▸ h.unreachable_next hknown
  creator := harenas ▸ h.creator
  opened := harenas ▸ h.opened
  size := harenas ▸ h.size

theorem registering_assign {pc : Pc} (hpc : ∀ r a thenPush, pc ≠ .registering r a thenPush)
    (t' : Thread) (r a : Nat) (thenPush : Bool)
    (h : (s.running.assign t pc).pc t' = .registering r a thenPush) :
    s.running.pc t' = .registering r a thenPush := by
  rw [Running.pc_assign] at h
  split at h
  · exact absurd h (hpc r a thenPush)
  · exact h

theorem moves (h : Register cfg s) (hc : Custody cfg s place) (hh : Histories cfg s)
    (hlive : t ∉ s.exited) (hm : Moves cfg s t act out s') (ht : t ≠ cfg.cleaner) :
    Register cfg s' := by
  have hext : Extends s s' := extends_moves hh hm
  have hknown : ∀ {r}, s'.Reachable r → s.Known r := fun hr => known_moves hc hlive hm hr
  have hunreachable : ∀ c ∈ s.cleanables, c.ran = true → ¬ s'.Reachable c.stack :=
    h.unreachable_next hknown
  cases hm with
  | @madeConfined vm segment thenPush hpc hv hsize =>
    have hnew : ∀ c ∈ s.cleanables, c.stack ≠ s.objects.length :=
      fun c hmem heq => absurd (h.holds c hmem).lt_length (by omega)
    refine ⟨fun c hmem => (h.holds c hmem).mono hext, fun t' r a thenPush' hpc' => ?_, h.once,
      hunreachable, fun a ha => ?_, fun a ha => ?_, fun a ha => ?_⟩
    · rw [Running.pc_assign] at hpc'
      split at hpc'
      · cases hpc'
        exact ⟨⟨segment, by simp [finals, NativeStack.new], by simp⟩, hnew⟩
      · obtain ⟨hholds, hne⟩ := h.pending t' r a thenPush' hpc'
        exact ⟨hholds.mono hext, hne⟩
    · rw [List.mem_append, List.mem_singleton] at ha
      rcases ha with ha | rfl
      · exact h.creator a ha
      · exact ht
    · rw [List.mem_append, List.mem_singleton] at ha
      rcases ha with ha | rfl
      · exact h.opened a ha
      · rfl
    · rw [List.mem_append, List.mem_singleton] at ha
      rcases ha with ha | rfl
      · exact h.size a ha
      · exact hsize
  | @registered vm r a thenPush hpc =>
    obtain ⟨hholds, hne⟩ := h.pending t r a thenPush hpc
    refine ⟨fun c hmem => ?_, fun t' r' a' thenPush' hpc' => ?_, ?_, fun c hmem hran => ?_,
      h.creator, h.opened, h.size⟩
    · rw [List.mem_append, List.mem_singleton] at hmem
      rcases hmem with hmem | rfl
      · exact (h.holds c hmem).mono hext
      · exact hholds.mono hext
    · rw [Running.pc_assign] at hpc'
      split at hpc'
      · cases hpc'
      · next heq =>
        obtain ⟨hholds', hne'⟩ := h.pending t' r' a' thenPush' hpc'
        refine ⟨hholds'.mono hext, fun c hmem => ?_⟩
        rw [List.mem_append, List.mem_singleton] at hmem
        rcases hmem with hmem | rfl
        · exact hne' c hmem
        · rintro rfl
          -- a stack is registered by the thread that has it in hand
          have hplace := hc.place_of_transit hpc rfl
          rw [hc.place_of_transit hpc' rfl] at hplace
          cases hplace
          exact heq rfl
    · rw [List.map_append, List.nodup_append]
      refine ⟨h.once, List.nodup_singleton _, fun r' hr' r'' hr'' => ?_⟩
      rw [List.mem_map] at hr'
      obtain ⟨c, hmem, rfl⟩ := hr'
      rw [List.map_singleton, List.mem_singleton] at hr''
      exact hr'' ▸ hne c hmem
    · rw [List.mem_append, List.mem_singleton] at hmem
      rcases hmem with hmem | rfl
      · exact hunreachable c hmem hran
      · cases hran
  | exited hpc => exact h.stay hext hknown rfl rfl fun _ _ _ _ hpc => hpc
  | hit thenPush hpc hb =>
    exact h.stay hext hknown rfl rfl (registering_assign (by cases thenPush <;> simp [obtained]))
  | bound hpc =>
    rename_i thenPush
    exact h.stay hext hknown rfl rfl (registering_assign (by cases thenPush <;> simp [obtained]))
  | _ => exact h.stay hext hknown rfl rfl (registering_assign (by simp))

theorem clean (h : Register cfg s) {c : Cleanable} (hc : s.cleanables[i]? = some c)
    (hfree : ¬ s.Reachable c.stack) :
    Register cfg { s with cleanables := s.cleanables.set i { c with ran := true } } where
  holds c' hmem := by
    rcases List.mem_or_eq_of_mem_set hmem with hmem | rfl
    · exact h.holds c' hmem
    · exact h.holds c (List.mem_of_getElem? hc)
  pending t r a thenPush hpc := by
    obtain ⟨hholds, hne⟩ := h.pending t r a thenPush hpc
    refine ⟨hholds, fun c' hmem => ?_⟩
    rcases List.mem_or_eq_of_mem_set hmem with hmem | rfl
    · exact hne c' hmem
    · exact hne c (List.mem_of_getElem? hc)
  once := by
    have hstack : (s.cleanables.map Cleanable.stack)[i]? = some c.stack := by
      rw [List.getElem?_map, hc, Option.map_some]
    rw [List.map_set, Table.set_same hstack]
    exact h.once
  unreachable c' hmem hran := by
    rcases List.mem_or_eq_of_mem_set hmem with hmem | rfl
    · exact h.unreachable c' hmem hran
    · exact hfree
  creator := h.creator
  opened := h.opened
  size := h.size

theorem init (cfg : Config Thread) : Register cfg (State.init Thread) where
  holds := by simp [State.init]
  pending := by simp [State.init, Running.pc]
  once := List.nodup_nil
  unreachable := by simp [State.init]
  creator := by simp [State.init]
  opened := by simp [State.init]
  size := by simp [State.init]

theorem step (h : Register cfg s) (hc : Custody cfg s place) (hh : Histories cfg s)
    {l : Label Thread} (hs : s.step cfg l = some (out, s')) :
    Register cfg s' := by
  rcases step_cases hs with ⟨t, act, -, hlive, ht, hm⟩ | ⟨i, c, -, hc, -, hfree, -, rfl⟩
  · exact h.moves hc hh hlive hm ht
  · rw [close_refused h.creator]
    exact h.clean hc hfree

end Register

theorem Run.register {trace : Trace Thread} (h : Run cfg trace s) :
    ∃ place, Custody cfg s place ∧ Histories cfg s ∧ Register cfg s := by
  refine Runs.Run.invariant
    (fun s => ∃ place, Custody cfg s place ∧ Histories cfg s ∧ Register cfg s)
    ⟨_, .init cfg, .init cfg, .init cfg⟩ ?_ h
  rintro s l out s' ⟨place, hc, hh, hr⟩ hs
  obtain ⟨place', hc'⟩ := hc.step hs
  exact ⟨place', hc', hh.step hc hs, hr.step hc hh hs⟩

namespace Register

theorem collected_new (h : Register cfg s) : s.collected s.objects.length = false := by
  rw [State.collected, List.any_eq_false]
  intro c hmem
  have hlt := (h.holds c hmem).lt_length
  simp
  omega

/-- What a step of a thread makes is still to be processed. -/
theorem tally_moves (h : Register cfg s) (hh : Histories cfg s) (hm : Moves cfg s t act out s') :
    s'.arenas.length + s.unprocessed = s.arenas.length + s'.unprocessed := by
  have hext : Extends s s' := extends_moves hh hm
  cases hm with
  | @madeConfined vm segment thenPush hpc hv hsize =>
    rw [unprocessed_made hext rfl rfl h.collected_new, List.length_append, List.length_singleton]
    simp only [NativeStack.new, Bool.false_eq_true, if_false]
    omega
  | @madeShared vm segment thenPush hpc hv hpool hsize =>
    rw [unprocessed_made hext rfl rfl h.collected_new]; rfl
  | @registered vm r a thenPush hpc =>
    have hcollected : ∀ r', State.collected { s with
        cleanables := s.cleanables ++ [⟨r, a, false⟩]
        running := s.running.assign t (.setting r thenPush) } r' = s.collected r' := by
      intro r'
      simp [State.collected]
    rw [unprocessed_of hext (funext hcollected) rfl]
  | took | called | restored | dropped | disowned =>
    rw [unprocessed_of hext rfl (List.length_set ..)]
  | _ => rw [unprocessed_of hext rfl rfl]

/-- The one action of a stack. -/
theorem eq_of_stack (h : Register cfg s) {c c' : Cleanable} (hc : c ∈ s.cleanables)
    (hc' : c' ∈ s.cleanables) (heq : c'.stack = c.stack) : c' = c :=
  List.inj_on_of_nodup_map h.once hc' hc heq

/-- An action that runs has its stack processed. -/
theorem tally_clean (h : Register cfg s) {c : Cleanable} (hc : s.cleanables[i]? = some c)
    (hran : c.ran = false) :
    s.unprocessed =
      State.unprocessed { s with cleanables := s.cleanables.set i { c with ran := true } } + 1 := by
  have hmem : c ∈ s.cleanables := List.mem_of_getElem? hc
  have hholds := h.holds c hmem
  have hnot : s.collected c.stack = false := by
    rw [← Bool.not_eq_true, collected_iff]
    rintro ⟨c', hmem', heq, hran'⟩
    rw [h.eq_of_stack hmem hmem' heq, hran] at hran'
    cases hran'
  refine Table.countP_flip List.nodup_range (List.mem_range.mpr hholds.lt_length) ?_ ?_
    fun r _ hne => ?_
  · rw [hholds.confined, hnot]
    rfl
  · simp [collected_ran hc]
  · simp [collected_ran hc, hne.symm, State.confined]

end Register

/-! ## Runs -/

variable {trace : Trace Thread}

/-- **Every arena is of a stack that is still to be processed, or of one whose
action the Cleaner ran at a step of the run.** -/
theorem Run.tally (h : Run cfg trace s) :
    s.arenas.length = s.unprocessed + trace.countP cleans := by
  induction h with
  | nil => rfl
  | @snoc trace s l out s' run hs ih =>
    obtain ⟨place, hc, hh, hr⟩ := Run.register run
    rw [List.countP_append, List.countP_singleton]
    rcases step_cases hs with ⟨t, act, rfl, -, -, hm⟩ | ⟨i, c, rfl, hc, hran, -, -, rfl⟩
    · have := hr.tally_moves hh hm
      simp only [cleans, Bool.false_eq_true, if_false]
      omega
    · have := hr.tally_clean hc hran
      simp only [cleans, if_true, close_refused hr.creator]
      omega

theorem ran_moves (hm : Moves cfg s t act out s') :
    s'.cleanables.countP Cleanable.ran = s.cleanables.countP Cleanable.ran := by
  cases hm with
  | registered => simp [List.countP_append]
  | _ => rfl

/-- The actions that have run are the steps of the run that ran one. -/
theorem Run.ran (h : Run cfg trace s) :
    s.cleanables.countP Cleanable.ran = trace.countP cleans := by
  induction h with
  | nil => rfl
  | @snoc trace s l out s' run hs ih =>
    rw [List.countP_append, List.countP_singleton]
    rcases step_cases hs with ⟨t, act, rfl, -, -, hm⟩ | ⟨i, c, rfl, hc, hran, -, -, rfl⟩
    · rw [ran_moves hm, ih]
      rfl
    · obtain ⟨hlt, heq⟩ := List.getElem?_eq_some_iff.mp hc
      simp only [List.countP_set hlt, heq, hran, cleans, Bool.false_eq_true, if_false, if_true]
      omega

/-- The stacks of platform threads are released, no sooner and no later than
they should be. -/
structure State.Released (s : State Thread) : Prop where
  safe : ∀ t r i a, s.threadStack.lookup t = some r → s.Holds r i → s.arenas[i]? = some a →
    a.closed = false
  freed : ∀ c ∈ s.cleanables, c.ran = true →
    s.Holds c.stack c.arena ∧ ∃ a, s.arenas[c.arena]? = some a ∧ a.closed = true
  unfreed_le : s.unfreed ≤ s.unprocessed

theorem Register.unfreed_eq (h : Register cfg s) : s.unfreed = s.arenas.length := by
  rw [State.unfreed, List.countP_eq_length]
  intro a ha
  rw [h.opened a ha]
  rfl

/-- **The stacks are released in just the runs in which the Cleaner runs no
action.** In every run a stack that a live thread's `threadStack` holds has its
arena open and its action still to run. But also where the action has run, the
arena is open, and there is one segment more than there are stacks still to be
processed for every action that the Cleaner ran. -/
theorem released_iff_not_cleaned (h : Run cfg trace s) :
    (s.Released ↔ ∀ e ∈ trace, cleans e = false) ∧
    (∀ t r, s.threadStack.lookup t = some r → s.collected r = false ∧
      ∀ i a, s.Holds r i → s.arenas[i]? = some a → a.closed = false) ∧
    (∀ c ∈ s.cleanables, c.ran = true →
      s.Holds c.stack c.arena ∧
      ∀ a, s.arenas[c.arena]? = some a → a.segment.byteSize = cfg.stackSize ∧ a.closed = false) ∧
    s.unfreed = s.unprocessed + trace.countP cleans := by
  obtain ⟨place, -, -, hr⟩ := h.register
  have htally : s.unfreed = s.unprocessed + trace.countP cleans := by rw [hr.unfreed_eq, h.tally]
  have hopen : ∀ (i : Nat) a, s.arenas[i]? = some a → a.closed = false :=
    fun _ a ha => hr.opened a (List.mem_of_getElem? ha)
  have hnone : trace.countP cleans = 0 ↔ ∀ e ∈ trace, cleans e = false := by
    rw [List.countP_eq_zero]
    simp only [Bool.not_eq_true]
  refine ⟨⟨fun hreleased => ?_, fun hkeep => ?_⟩, fun t r hb => ⟨?_, fun i a _ ha => hopen i a ha⟩,
    fun c hc _ => ⟨hr.holds c hc, fun a ha => ⟨hr.size a (List.mem_of_getElem? ha), hopen _ a ha⟩⟩,
    htally⟩
  · rw [← hnone]
    have := hreleased.unfreed_le
    omega
  · have hzero := hnone.mpr hkeep
    have hran := h.ran
    rw [hzero, List.countP_eq_zero] at hran
    exact ⟨fun _ _ i a _ _ ha => hopen i a ha, fun c hc hc' => absurd hc' (hran c hc), by omega⟩
  · rw [← Bool.not_eq_true, collected_iff]
    rintro ⟨c, hc, rfl, hran⟩
    exact hr.unreachable c hc hran (reachable_iff.mpr (.inl ⟨t, hb⟩))

/-- A thread that ended, whose stack the Cleaner has processed, and one that has its stack bound. -/
theorem released_iff_not_cleaned_ended :
    let cfg : Config Nat := ⟨64, by decide, 8, fun _ => false, 99⟩
    ∃ trace s, Run cfg trace s ∧ s.exited = [0] ∧ s.threadStack.lookup 1 = some 1 ∧
      (s.Released ↔ ∀ e ∈ trace, cleans e = false) ∧
      (∀ t r, s.threadStack.lookup t = some r → s.collected r = false ∧
        ∀ i a, s.Holds r i → s.arenas[i]? = some a → a.closed = false) ∧
      (∀ c ∈ s.cleanables, c.ran = true →
        s.Holds c.stack c.arena ∧
        ∀ a, s.arenas[c.arena]? = some a → a.segment.byteSize = cfg.stackSize ∧ a.closed = false) ∧
      s.unfreed = s.unprocessed + trace.countP cleans := by
  intro cfg
  let next (t : Nat) : Label Nat :=
    .thread t (.next ⟨fun _ => true, some ⟨0x1000, 64, by decide, by decide⟩⟩)
  obtain ⟨s, hs⟩ : ∃ s, Runs.final (State.step cfg) (State.init Nat)
      (.thread 0 .getStack :: List.replicate 3 (next 0) ++
        .thread 1 .getStack :: List.replicate 3 (next 1) ++
        [.thread 0 .exit, .clean 0]) = some s := ⟨_, rfl⟩
  obtain ⟨trace, hrun⟩ : ∃ trace, Run cfg trace s := Runs.exists_run hs
  refine ⟨trace, s, hrun, ?_, ?_, released_iff_not_cleaned hrun⟩
  · cases hs
    rfl
  · cases hs
    decide

/-- One platform thread takes a stack and ends, and the Cleaner runs the action:
no stack is left to be processed, and a segment is not freed. -/
theorem not_released_after_cleaning :
    let cfg : Config Nat := ⟨64, by decide, 8, fun _ => false, 99⟩
    ¬ ∀ trace s, Run cfg trace s → s.Released := by
  intro cfg hreleases
  let next : Label Nat := .thread 0 (.next ⟨fun _ => true, some ⟨0x1000, 64, by decide, by decide⟩⟩)
  obtain ⟨s, hs⟩ : ∃ s, Runs.final (State.step cfg) (State.init Nat)
      [.thread 0 .getStack, next, next, next, .thread 0 .exit, .clean 0] = some s := ⟨_, rfl⟩
  obtain ⟨trace, hrun⟩ : ∃ trace, Run cfg trace s := Runs.exists_run hs
  have hcounts : s.unfreed = 1 ∧ s.unprocessed = 0 := by
    cases hs
    exact ⟨rfl, rfl⟩
  have hle := (hreleases trace s hrun).unfreed_le
  rw [hcounts.1, hcounts.2] at hle
  exact absurd hle (by decide)

end FfiBenchmark.Pool
