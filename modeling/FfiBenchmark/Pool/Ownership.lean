/-
Exclusive ownership of stacks.

Three records say whose a stack is: the binding in `threadStack`, the field
`owner` and the list `cachePool`. They are written at different statements, some
under the lock and some not. `Custody` ties them to one `Place` for each stack,
through every interleaving; a stack that is in one place is in no other.
-/
import FfiBenchmark.Lib.Runs
import FfiBenchmark.Pool
import Mathlib.Logic.Function.Basic

namespace FfiBenchmark.Pool

open NativeStack (Call)

variable {Thread : Type}

/-- Where a stack is. In transit, a running `getStack` or `close` has it in hand
and no `threadStack` does; `owned` until `this.owner = null`. -/
inductive Place (Thread : Type) where
  | nowhere
  | bound (t : Thread)
  | pooled
  | transit (t : Thread) (owned : Bool)

/-- The owner of a stack at that place. -/
def Place.owner : Place Thread → Option Thread
  | .bound t => some t
  | .transit t owned => if owned then some t else none
  | .nowhere => none
  | .pooled => none

/-- The thread that has a stack at that place in its hands. -/
def Place.holder : Place Thread → Option Thread
  | .bound t => some t
  | .transit t _ => some t
  | .nowhere => none
  | .pooled => none

/-- The stack that is in transit in a method at that statement, and whether it is owned. -/
def Pc.transit : Pc → Option (Nat × Bool)
  | .registering r _ _ | .setting r _ | .disowning r => some (r, true)
  | .caching r => some (r, false)
  | .idle | .missing _ | .pushing _ | .testing _ | .restoring _ _ | .dropping _ _ | .returning _ _
  | .unsetting _ => none

/-- What `threadStack` holds for a thread at that statement, `idle` apart. -/
def Pc.binding : Pc → Option Nat
  | .pushing r | .testing r | .restoring r _ | .dropping r _ | .returning r _ | .unsetting r =>
    some r
  | .idle | .missing _ | .registering _ _ _ | .setting _ _ | .disowning _ | .caching _ => none

/-- The stack that is on its way to `cachePool`. -/
def Pc.releases : Pc → Option Nat
  | .unsetting r | .disowning r | .caching r => some r
  | .idle | .missing _ | .registering _ _ _ | .setting _ _ | .pushing _ | .testing _
  | .restoring _ _ | .dropping _ _
  | .returning _ _ => none

/-- The fields of a stack that ownership rests on. -/
def title (x : NativeStack Thread) : Option Thread × Bool := (x.owner, x.shared)

theorem Pc.eq_of_transit {pc : Pc} {r : Nat} {owned : Bool} (h : pc.transit = some (r, owned)) :
    ∀ r' owned', pc.transit = some (r', owned') → r' = r := by
  intro r' owned' h'
  rw [h] at h'
  cases h'
  rfl

variable [DecidableEq Thread]

theorem copyOf_error {heap : Nat → Bool} {array : List Long} {n : Int} {e : Exn}
    (h : copyOf heap array n = .error e) :
    e = .negativeArraySize ∨ e = .outOfMemory := by
  unfold copyOf at h
  split at h
  · cases h
    exact .inl rfl
  · split at h
    · cases h
    · cases h
      exact .inr rfl

/-- Whatever state the stack is in, a `push` by its owner is not refused. -/
theorem push_owned {x : NativeStack Thread} {t : Thread} (how : x.owner = some t)
    (heap : Nat → Bool) :
    title (Method.fields (NativeStack.push heap t x)) = title x ∧
      Loop.outcome (NativeStack.push heap t x) ≠ .error NativeStack.wrongThread := by
  simp only [NativeStack.push, Method.bind_apply, NativeStack.checkThread_apply, how, if_true,
    Method.get_apply]
  by_cases hfull : x.frameIndex = x.frames.length
  · rw [if_pos hfull]
    cases hcopy : copyOf heap x.frames (int32 (x.frameIndex * 2)) with
    | error e =>
      rcases copyOf_error hcopy with rfl | rfl <;>
        exact ⟨rfl, by simp [Method.bind_apply, Method.ofExcept_error, NativeStack.wrongThread]⟩
    | ok frames =>
      simp only [Method.bind_apply, Method.ofExcept_ok, Method.modify_apply, Method.get_apply]
      by_cases hlt : x.frameIndex < frames.length
      · rw [if_pos hlt]
        exact ⟨rfl, by simp [Method.modify_apply]⟩
      · rw [if_neg hlt]
        exact ⟨rfl, by simp [Method.throw_apply, NativeStack.wrongThread]⟩
  · rw [if_neg hfull]
    simp only [Method.bind_apply, Method.modify_apply, Method.get_apply]
    by_cases hlt : x.frameIndex < x.frames.length
    · rw [if_pos hlt]
      exact ⟨rfl, by simp [Method.modify_apply]⟩
    · rw [if_neg hlt]
      exact ⟨rfl, by simp [Method.throw_apply, NativeStack.wrongThread]⟩

/-- Only `close` and `getStack` write these fields. -/
theorem title_exec (t : Thread) {c : Call} (hc : c ≠ .close) (x : NativeStack Thread) :
    title (Method.fields (NativeStack.exec t c x)) = title x := by
  by_cases how : x.owner = some t
  · cases c with
    | push heap =>
      have htitle := (push_owned how heap).1
      simp only [NativeStack.exec, Method.bind_apply]
      cases hp : NativeStack.push heap t x <;> rw [hp] at htitle <;> exact htitle
    | close => exact absurd rfl hc
    | allocate byteSize byteAlignment =>
      simp only [NativeStack.exec, Method.bind_apply, NativeStack.allocate_eq, if_pos how]
      cases NativeStack.place x.segment x.offset byteSize byteAlignment <;> rfl
  · rw [NativeStack.exec_foreign how]
    rfl

/-- The stack exists and is shared. -/
def State.Shared (s : State Thread) (r : Nat) : Prop :=
  ∃ x, s.objects[r]? = some x ∧ x.shared = true

/-- What `place` says of the thread `t`. -/
structure ThreadOk (s : State Thread) (place : Nat → Place Thread) (t : Thread) : Prop where
  bound : ∀ r, s.threadStack.lookup t = some r ↔ place r = .bound t
  transit : ∀ r owned, (s.running.pc t).transit = some (r, owned) ↔ place r = .transit t owned
  binding : s.running.pc t ≠ .idle → s.threadStack.lookup t = (s.running.pc t).binding
  shared : ∀ r, (s.running.pc t).releases = some r → s.Shared r
  exited : t ∈ s.exited → s.running.pc t = .idle ∧ s.threadStack.lookup t = none

/-- What `place` says of the stack `r`. -/
structure StackOk (cfg : Config Thread) (s : State Thread) (place : Nat → Place Thread)
    (r : Nat) : Prop where
  pooled : r ∈ s.cachePool ↔ place r = .pooled
  fresh : s.objects.length ≤ r → place r = .nowhere
  owner : ∀ x, s.objects[r]? = some x →
    x.owner = (place r).owner ∨ place r = .nowhere ∧ ∃ t ∈ s.exited, x.owner = some t
  shared : place r = .pooled → s.Shared r
  kind : ∀ x t, s.objects[r]? = some x → (place r).holder = some t → x.shared = cfg.isVirtual t

/-- The records agree that every stack is where `place` says. -/
structure Custody (cfg : Config Thread) (s : State Thread) (place : Nat → Place Thread) : Prop where
  thread : ∀ t, ThreadOk s place t
  stack : ∀ r, StackOk cfg s place r
  nodup : s.cachePool.Nodup
  limit : s.cachePool.length ≤ cfg.cacheLimit

/-- No thread but `t` has a stack at that place in its hands. -/
def Place.Hands (t : Thread) : Place Thread → Prop
  | .bound t' => t' = t
  | .transit t' _ => t' = t
  | .nowhere => True
  | .pooled => True

theorem lookup_insert_ite (m : AList fun _ : Thread => Nat) (t t' : Thread) (r : Nat) :
    (m.insert t r).lookup t' = if t' = t then some r else m.lookup t' := by
  split
  · next h => rw [h, AList.lookup_insert]
  · next h => rw [AList.lookup_insert_ne h]

theorem lookup_erase_ite (m : AList fun _ : Thread => Nat) (t t' : Thread) :
    (m.erase t).lookup t' = if t' = t then none else m.lookup t' := by
  split
  · next h => rw [h, AList.lookup_erase]
  · next h => rw [AList.lookup_erase_ne h]

namespace Custody

variable {cfg : Config Thread} {s s' : State Thread} {place : Nat → Place Thread} {t : Thread}
  {r : Nat} {q : Place Thread}

/-- `t` moves the stack `r` from its hands, from nowhere or from `cachePool` to such a place. -/
theorem move (h : Custody cfg s place) (hfrom : (place r).Hands t) (hto : q.Hands t)
    (hother : ∀ t', t' ≠ t → s'.threadStack.lookup t' = s.threadStack.lookup t' ∧
      s'.running.pc t' = s.running.pc t' ∧ (t' ∈ s'.exited → t' ∈ s.exited))
    (hexited : ∀ t', t' ∈ s.exited → t' ∈ s'.exited)
    (hobjects : ∀ r', r' ≠ r → s'.objects[r']? = s.objects[r']?)
    (hlen : s.objects.length ≤ s'.objects.length) (hshared : s.Shared r → s'.Shared r)
    (hpool : ∀ r', r' ≠ r → (r' ∈ s'.cachePool ↔ r' ∈ s.cachePool)) (hnodup : s'.cachePool.Nodup)
    (hlimit : s'.cachePool.length ≤ cfg.cacheLimit) (ht : ThreadOk s' (Function.update place r q) t)
    (hr : StackOk cfg s' (Function.update place r q) r) :
    Custody cfg s' (Function.update place r q) where
  thread t' := by
    by_cases heq : t' = t
    · exact heq ▸ ht
    · obtain ⟨hts, hpc, hex⟩ := hother t' heq
      have hold := h.thread t'
      have hkeep : ∀ r', Function.update place r q r' = .bound t' ↔ place r' = .bound t' := by
        intro r'
        rw [Function.update_apply]
        split
        · next hr' =>
          rw [hr']
          exact ⟨fun hq => absurd (hq ▸ hto : Place.Hands t (.bound t')) heq,
            fun hp => absurd (hp ▸ hfrom : Place.Hands t (.bound t')) heq⟩
        · exact Iff.rfl
      have hkeep' : ∀ r' owned, Function.update place r q r' = .transit t' owned ↔
          place r' = .transit t' owned := by
        intro r' owned
        rw [Function.update_apply]
        split
        · next hr' =>
          rw [hr']
          exact ⟨fun hq => absurd (hq ▸ hto : Place.Hands t (.transit t' owned)) heq,
            fun hp => absurd (hp ▸ hfrom : Place.Hands t (.transit t' owned)) heq⟩
        · exact Iff.rfl
      refine ⟨fun r' => ?_, fun r' owned => ?_, ?_, fun r' hrel => ?_, fun hmem => ?_⟩
      · rw [hts, hkeep, hold.bound]
      · rw [hpc, hkeep', hold.transit]
      · rw [hts, hpc]
        exact hold.binding
      · rw [hpc] at hrel
        obtain ⟨x, hx, hsh⟩ := hold.shared r' hrel
        by_cases hr' : r' = r
        · subst hr'
          exact hshared ⟨x, hx, hsh⟩
        · exact ⟨x, by rw [hobjects r' hr', hx], hsh⟩
      · rw [hts, hpc]
        exact hold.exited (hex hmem)
  stack r' := by
    by_cases heq : r' = r
    · exact heq ▸ hr
    · have hold := h.stack r'
      have hp : Function.update place r q r' = place r' := Function.update_of_ne heq _ _
      refine ⟨?_, fun hle => ?_, fun x hx => ?_, fun hpl => ?_, fun x t' hx hh => ?_⟩
      · rw [hp, hpool r' heq, hold.pooled]
      · rw [hp, hold.fresh (by omega)]
      · rw [hobjects r' heq] at hx
        rw [hp]
        rcases hold.owner x hx with ho | ⟨hnow, t', ht', ho⟩
        · exact .inl ho
        · exact .inr ⟨hnow, t', hexited t' ht', ho⟩
      · rw [hp] at hpl
        obtain ⟨x, hx, hsh⟩ := hold.shared hpl
        exact ⟨x, by rw [hobjects r' heq, hx], hsh⟩
      · rw [hobjects r' heq] at hx
        rw [hp] at hh
        exact hold.kind x t' hx hh
  nodup := hnodup
  limit := hlimit

/-- A step that moves no stack and writes no `owner`. -/
theorem keep (h : Custody cfg s place) (hts : s'.threadStack = s.threadStack)
    (hpool : s'.cachePool = s.cachePool) (hexited : s'.exited = s.exited)
    (hobjects : ∀ r : Nat, (s'.objects[r]?).map title = (s.objects[r]?).map title)
    (hother : ∀ t', t' ≠ t → s'.running.pc t' = s.running.pc t')
    (htransit : (s'.running.pc t).transit = (s.running.pc t).transit)
    (hbinding : s'.running.pc t ≠ .idle → s.threadStack.lookup t = (s'.running.pc t).binding)
    (hreleases : ∀ r, (s'.running.pc t).releases = some r → s.Shared r)
    (hlive : t ∈ s.exited → s'.running.pc t = .idle) :
    Custody cfg s' place := by
  have hshared : ∀ r, s.Shared r → s'.Shared r := by
    intro r hex
    obtain ⟨x, hx, hsh⟩ := hex
    have hr := hobjects r
    rw [hx] at hr
    simp only [Option.map_some, Option.map_eq_some_iff, title, Prod.mk.injEq] at hr
    obtain ⟨x', hx', -, hsh'⟩ := hr
    exact ⟨x', hx', hsh'.trans hsh⟩
  refine ⟨fun t' => ?_, fun r => ?_, hpool ▸ h.nodup, hpool ▸ h.limit⟩
  · have hold := h.thread t'
    by_cases heq : t' = t
    · subst heq
      refine ⟨fun r => ?_, fun r owned => ?_, ?_, fun r hrel => ?_, fun hmem => ?_⟩
      · rw [hts, hold.bound]
      · rw [htransit, hold.transit]
      · rw [hts]
        exact hbinding
      · exact hshared r (hreleases r hrel)
      · rw [hexited] at hmem
        exact ⟨hlive hmem, by rw [hts]; exact (hold.exited hmem).2⟩
    · have hpc := hother t' heq
      refine ⟨fun r => ?_, fun r owned => ?_, ?_, fun r hrel => ?_, fun hmem => ?_⟩
      · rw [hts, hold.bound]
      · rw [hpc, hold.transit]
      · rw [hts, hpc]
        exact hold.binding
      · exact hshared r (hold.shared r (hpc ▸ hrel))
      · rw [hexited] at hmem
        rw [hts, hpc]
        exact hold.exited hmem
  · have hold := h.stack r
    refine ⟨by rw [hpool, hold.pooled], fun hle => ?_, fun x hx => ?_,
      fun hp => hshared r (hold.shared hp), fun x t' hx hh => ?_⟩
    · have hr := hobjects r
      rw [List.getElem?_eq_none hle, Option.map_none, eq_comm, Option.map_eq_none_iff] at hr
      exact hold.fresh (List.getElem?_eq_none_iff.mp hr)
    · have hr := hobjects r
      rw [hx, Option.map_some, eq_comm, Option.map_eq_some_iff] at hr
      obtain ⟨y, hy, heq⟩ := hr
      rw [title, title, Prod.mk.injEq] at heq
      rw [hexited, ← heq.1]
      exact hold.owner y hy
    · have hr := hobjects r
      rw [hx, Option.map_some, eq_comm, Option.map_eq_some_iff] at hr
      obtain ⟨y, hy, heq⟩ := hr
      rw [title, title, Prod.mk.injEq] at heq
      rw [← heq.2]
      exact hold.kind y t' hy hh

/-- `t` goes on to `pc` with the stack still in the same place. -/
theorem stay (h : Custody cfg s place) (hlive : t ∉ s.exited) {pc : Pc}
    {objects : List (NativeStack Thread)} {cleanables : List Cleanable}
    (hobjects : ∀ r : Nat, (objects[r]?).map title = (s.objects[r]?).map title)
    (htransit : pc.transit = (s.running.pc t).transit)
    (hbinding : pc ≠ .idle → s.threadStack.lookup t = pc.binding)
    (hreleases : ∀ r, pc.releases = some r → s.Shared r) :
    Custody cfg { s with
      objects := objects
      cleanables := cleanables
      running := s.running.assign t pc } place := by
  refine h.keep (t := t) rfl rfl rfl hobjects ?_ ?_ ?_ ?_ ?_
  · exact fun t' ht' => Running.pc_assign_ne _ ht' _
  · rwa [Running.pc_assign_self]
  · rwa [Running.pc_assign_self]
  · rwa [Running.pc_assign_self]
  · exact fun hmem => absurd hmem hlive

/-- The thread that owns a stack has it bound or in transit. -/
theorem of_owner (h : Custody cfg s place) (hlive : t ∉ s.exited) {x : NativeStack Thread}
    (hx : s.objects[r]? = some x) (how : x.owner = some t) :
    s.threadStack.lookup t = some r ∨ (s.running.pc t).transit = some (r, true) := by
  rcases (h.stack r).owner x hx with ho | ⟨-, t', ht', ho⟩
  · rw [how] at ho
    cases hp : place r with
    | nowhere => rw [hp] at ho; cases ho
    | pooled => rw [hp] at ho; cases ho
    | bound t' =>
      rw [hp] at ho
      cases ho
      exact .inl (((h.thread t).bound r).mpr hp)
    | transit t' owned =>
      rw [hp] at ho
      cases owned with
      | false => cases ho
      | true =>
        cases ho
        exact .inr (((h.thread t).transit r true).mpr hp)
  · rw [how] at ho
    cases ho
    exact absurd ht' hlive

theorem owner_eq (h : Custody cfg s place) (hp : place r ≠ .nowhere) {x : NativeStack Thread}
    (hx : s.objects[r]? = some x) : x.owner = (place r).owner := by
  rcases (h.stack r).owner x hx with ho | ⟨hnow, -⟩
  · exact ho
  · exact absurd hnow hp

theorem lt_length (h : Custody cfg s place) (hp : place r ≠ .nowhere) : r < s.objects.length :=
  Nat.lt_of_not_le fun hle => hp ((h.stack r).fresh hle)

theorem binding_of (h : Custody cfg s place) {pc : Pc} {b : Option Nat} (hpc : s.running.pc t = pc)
    (hidle : pc ≠ .idle) (hb : pc.binding = b) : s.threadStack.lookup t = b := by
  have := (h.thread t).binding (by rwa [hpc])
  rwa [hpc, hb] at this

/-- The stack of a running method is in the hands of its thread. -/
theorem holder_of_stack (h : Custody cfg s place) (hr : (s.running.pc t).stack = some r) :
    (place r).holder = some t := by
  have hbound : s.threadStack.lookup t = some r → (place r).holder = some t := by
    intro hb
    rw [((h.thread t).bound r).mp hb]
    rfl
  have htransit : ∀ owned, (s.running.pc t).transit = some (r, owned) →
      (place r).holder = some t := by
    intro owned hin
    rw [((h.thread t).transit r owned).mp hin]
    rfl
  cases hpc : s.running.pc t with
  | idle | missing thenPush =>
    rw [hpc] at hr
    cases hr
  | registering r' a thenPush | setting r' thenPush | disowning r' =>
    rw [hpc] at hr
    cases hr
    exact htransit true (by rw [hpc]; rfl)
  | caching r' =>
    rw [hpc] at hr
    cases hr
    exact htransit false (by rw [hpc]; rfl)
  | pushing r' | testing r' | restoring r' prevIndex | dropping r' prevIndex
  | returning r' prevIndex | unsetting r' =>
    rw [hpc] at hr
    cases hr
    exact hbound (h.binding_of hpc (by simp) rfl)

/-- No other thread runs a method on a stack in the hands of `t`, or in nobody's. -/
theorem alone (h : Custody cfg s place)
    (hheld : (place r).holder = some t ∨ (place r).holder = none) (t' : Thread) (ht' : t' ≠ t) :
    (s.running.pc t').stack ≠ some r := by
  intro hr
  have := h.holder_of_stack hr
  rcases hheld with hheld | hheld
  · rw [hheld] at this
    exact ht' (Option.some.inj this).symm
  · rw [hheld] at this
    cases this

theorem owner_of_binding (h : Custody cfg s place) {pc : Pc} (hpc : s.running.pc t = pc)
    (hb : pc.binding = some r) {x : NativeStack Thread} (hx : s.objects[r]? = some x) :
    x.owner = some t := by
  have hidle : pc ≠ .idle := by rintro rfl; cases hb
  have hp : place r = .bound t := ((h.thread t).bound r).mp (h.binding_of hpc hidle hb)
  rw [h.owner_eq (by simp [hp]) hx, hp]
  rfl

theorem holder_of_owner (h : Custody cfg s place) (hlive : t ∉ s.exited) {x : NativeStack Thread}
    (hx : s.objects[r]? = some x) (how : x.owner = some t) : (place r).holder = some t := by
  rcases h.of_owner hlive hx how with hb | hin
  · rw [((h.thread t).bound r).mp hb]
    rfl
  · rw [((h.thread t).transit r true).mp hin]
    rfl

theorem place_of_transit (h : Custody cfg s place) {pc : Pc} {owned : Bool}
    (hpc : s.running.pc t = pc) (htransit : pc.transit = some (r, owned)) :
    place r = .transit t owned := by
  rw [← (h.thread t).transit, hpc, htransit]

/-! ### The statements that move a stack -/

/-- The thread that moves a stack has no other in its hands, before or after. -/
theorem moved (h : Custody cfg s place) (hbound : ∀ r', s.threadStack.lookup t = some r' → r' = r)
    (hin : ∀ r' owned, (s.running.pc t).transit = some (r', owned) → r' = r)
    (hbound' : ∀ r', s'.threadStack.lookup t = some r' ↔ r' = r ∧ q = .bound t)
    (hin' : ∀ r' owned, (s'.running.pc t).transit = some (r', owned) ↔
      r' = r ∧ q = .transit t owned)
    (hbinding : s'.running.pc t ≠ .idle → s'.threadStack.lookup t = (s'.running.pc t).binding)
    (hshared : ∀ r', (s'.running.pc t).releases = some r' → s'.Shared r')
    (hexited : t ∈ s'.exited → s'.running.pc t = .idle ∧ s'.threadStack.lookup t = none) :
    ThreadOk s' (Function.update place r q) t := by
  refine ⟨fun r' => ?_, fun r' owned => ?_, hbinding, hshared, hexited⟩
  · rw [hbound', Function.update_apply]
    split
    · next hr' => exact and_iff_right hr'
    · next hr' => exact ⟨fun hn => absurd hn.1 hr',
        fun hp => absurd (hbound r' (((h.thread t).bound r').mpr hp)) hr'⟩
  · rw [hin', Function.update_apply]
    split
    · next hr' => exact and_iff_right hr'
    · next hr' =>
      exact ⟨fun hn => absurd hn.1 hr',
        fun hp => absurd (hin r' owned (((h.thread t).transit r' owned).mpr hp)) hr'⟩

/-- The stack changes hands with its fields as they are. -/
theorem handed (h : Custody cfg s place) (hne : place r ≠ .nowhere) (hpool : place r ≠ .pooled)
    (hq : q ≠ .pooled) (howner : q.owner = (place r).owner) (hholder : q.holder = (place r).holder)
    (hobjects : s'.objects = s.objects) (hcache : s'.cachePool = s.cachePool) :
    StackOk cfg s' (Function.update place r q) r := by
  refine ⟨?_, fun hle => ?_, fun y hy => .inl ?_, fun hpl => ?_,
    fun y t' hy hh => (h.stack r).kind y t' ?_ ?_⟩
  · rw [hcache, (h.stack r).pooled, Function.update_self]
    exact iff_of_false hpool hq
  · rw [hobjects] at hle
    exact absurd (h.lt_length hne) (Nat.not_lt.mpr hle)
  · rw [hobjects] at hy
    rw [Function.update_self, howner, h.owner_eq hne hy]
  · rw [Function.update_self] at hpl
    exact absurd hpl hq
  · rwa [hobjects] at hy
  · rwa [Function.update_self, hholder] at hh

theorem took (h : Custody cfg s place) {x : NativeStack Thread} {pool : List Nat} {thenPush : Bool}
    (hlive : t ∉ s.exited) (hpc : s.running.pc t = .missing thenPush) (hv : cfg.isVirtual t = true)
    (hpool : s.cachePool = pool ++ [r]) (hx : s.objects[r]? = some x) :
    Custody cfg { s with
        objects := s.objects.set r (x.changeOwner t)
        cachePool := pool
        running := s.running.assign t (.setting r thenPush) }
      (Function.update place r (.transit t true)) := by
  have hp : place r = .pooled := by rw [← (h.stack r).pooled, hpool]; simp
  have hnone : s.threadStack.lookup t = none := h.binding_of hpc (by simp) rfl
  obtain ⟨hlt, -⟩ := List.getElem?_eq_some_iff.mp hx
  have hnodup := h.nodup
  have hlimit := h.limit
  rw [hpool, List.nodup_append] at hnodup
  rw [hpool, List.length_append] at hlimit
  have hout : r ∉ pool := fun hmem => hnodup.2.2 r hmem r (by simp) rfl
  refine h.move (t := t) (by rw [hp]; trivial) rfl ?_ (fun _ ht' => ht') ?_ (by simp) ?_ ?_
    hnodup.1 ?_ ?_ ?_
  · exact fun t' ht' => ⟨rfl, Running.pc_assign_ne _ ht' _, fun hmem => hmem⟩
  · exact fun r' hr' => List.getElem?_set_ne hr'.symm
  · intro hex
    obtain ⟨y, hy, hsh⟩ := hex
    rw [hx] at hy
    cases hy
    exact ⟨_, List.getElem?_set_self hlt, hsh⟩
  · intro r' hr'
    simp [hpool, hr']
  · simp only [List.length_singleton] at hlimit
    dsimp only
    omega
  · refine h.moved (by simp [hnone]) (by simp [hpc, Pc.transit]) ?_ ?_ ?_ ?_ ?_
    · simp [hnone]
    · simp [Pc.transit, eq_comm]
    · simp [hnone, Pc.binding]
    · simp [Pc.releases]
    · exact fun hmem => absurd hmem hlive
  · refine ⟨?_, ?_, ?_, ?_, ?_⟩
    · simp [hout]
    · simp only [List.length_set]
      omega
    · intro y hy
      rw [List.getElem?_set_self hlt] at hy
      cases hy
      simp [Place.owner, NativeStack.changeOwner]
    · simp
    · intro y t' hy hh
      rw [List.getElem?_set_self hlt] at hy
      cases hy
      rw [Function.update_self] at hh
      cases hh
      obtain ⟨y, hy, hsh⟩ := (h.stack r).shared hp
      rw [hx] at hy
      cases hy
      exact hsh.trans hv.symm

/-- A new stack, shared or not, in the hands of the thread that made it. -/
theorem made (h : Custody cfg s place) {x : NativeStack Thread} {pc : Pc} {thenPush : Bool}
    {sharedArena : List MemorySegment} {arenas : List (Arena Thread)} (hlive : t ∉ s.exited)
    (hpc : s.running.pc t = .missing thenPush) (how : x.owner = some t)
    (hkind : x.shared = cfg.isVirtual t) (htransit : pc.transit = some (s.objects.length, true))
    (hbinding : pc.binding = none) (hreleases : pc.releases = none) :
    Custody cfg { s with
        objects := s.objects ++ [x]
        sharedArena := sharedArena
        arenas := arenas
        running := s.running.assign t pc }
      (Function.update place s.objects.length (.transit t true)) := by
  have hp : place s.objects.length = .nowhere := (h.stack _).fresh (Nat.le_refl _)
  have hnone : s.threadStack.lookup t = none := h.binding_of hpc (by simp) rfl
  have hout : s.objects.length ∉ s.cachePool := by rw [(h.stack _).pooled, hp]; simp
  refine h.move (t := t) (by rw [hp]; trivial) rfl ?_ (fun _ ht' => ht') ?_ (by simp) ?_
    (fun _ _ => Iff.rfl)
    h.nodup h.limit ?_ ?_
  · exact fun t' ht' => ⟨rfl, Running.pc_assign_ne _ ht' _, fun hmem => hmem⟩
  · intro r' hr'
    dsimp only
    rcases Nat.lt_or_gt_of_ne hr' with hlt | hgt
    · exact List.getElem?_append_left hlt
    · have hle : (s.objects ++ [x]).length ≤ r' := by
        rw [List.length_append, List.length_singleton]; omega
      rw [List.getElem?_eq_none hle, List.getElem?_eq_none (Nat.le_of_lt hgt)]
  · intro hex
    obtain ⟨y, hy, -⟩ := hex
    simp at hy
  · refine h.moved (by simp [hnone]) (by simp [hpc, Pc.transit]) ?_ ?_ ?_ ?_ ?_
    · simp [hnone]
    · simp [htransit, eq_comm]
    · simp [hnone, hbinding]
    · simp [hreleases]
    · exact fun hmem => absurd hmem hlive
  · refine ⟨?_, ?_, ?_, ?_, ?_⟩
    · simp [hout]
    · simp
    · intro y hy
      simp only [List.getElem?_concat_length, Option.some.injEq] at hy
      subst hy
      simp [Place.owner, how]
    · simp
    · intro y t' hy hh
      simp only [List.getElem?_concat_length, Option.some.injEq] at hy
      subst hy
      rw [Function.update_self] at hh
      cases hh
      exact hkind

theorem set (h : Custody cfg s place) {thenPush : Bool} (hlive : t ∉ s.exited)
    (hpc : s.running.pc t = .setting r thenPush) :
    Custody cfg { s with
        threadStack := s.threadStack.insert t r
        running := s.running.assign t (obtained r thenPush).2 }
      (Function.update place r (.bound t)) := by
  have hp : place r = .transit t true := h.place_of_transit hpc rfl
  have hne : place r ≠ .nowhere := by simp [hp]
  have hnone : s.threadStack.lookup t = none := h.binding_of hpc (by simp) rfl
  have hgoes : (obtained r thenPush).2 = .pushing r ∨ (obtained r thenPush).2 = .idle := by
    cases thenPush <;> simp [obtained]
  refine h.move (t := t) (by rw [hp]; rfl) rfl ?_ (fun _ ht' => ht') (fun _ _ => rfl)
    (Nat.le_refl _) (fun hs => hs)
    (fun _ _ => Iff.rfl) h.nodup h.limit ?_ ?_
  · exact fun t' ht' => ⟨by rw [lookup_insert_ite, if_neg ht'], Running.pc_assign_ne _ ht' _,
      fun hmem => hmem⟩
  · refine h.moved (by simp [hnone]) ?_ ?_ ?_ ?_ ?_ ?_
    · exact Pc.eq_of_transit (by rw [hpc]; rfl)
    · simp [eq_comm]
    · rcases hgoes with hgoes | hgoes <;> simp [hgoes, Pc.transit]
    · rcases hgoes with hgoes | hgoes <;> simp [hgoes, Pc.binding]
    · rcases hgoes with hgoes | hgoes <;> simp [hgoes, Pc.releases]
    · exact fun hmem => absurd hmem hlive
  · exact h.handed hne (by simp [hp]) (by simp) (by rw [hp]; rfl) (by rw [hp]; rfl) rfl rfl

theorem unset (h : Custody cfg s place) (hlive : t ∉ s.exited)
    (hpc : s.running.pc t = .unsetting r) :
    Custody cfg { s with
        threadStack := s.threadStack.erase t
        running := s.running.assign t (.disowning r) }
      (Function.update place r (.transit t true)) := by
  have hb : s.threadStack.lookup t = some r := h.binding_of hpc (by simp) rfl
  have hp : place r = .bound t := ((h.thread t).bound r).mp hb
  have hne : place r ≠ .nowhere := by simp [hp]
  have hshared : s.Shared r := (h.thread t).shared r (by rw [hpc]; rfl)
  refine h.move (t := t) (by rw [hp]; rfl) rfl ?_ (fun _ ht' => ht') (fun _ _ => rfl)
    (Nat.le_refl _) (fun hs => hs)
    (fun _ _ => Iff.rfl) h.nodup h.limit ?_ ?_
  · exact fun t' ht' => ⟨by rw [lookup_erase_ite, if_neg ht'], Running.pc_assign_ne _ ht' _,
      fun hmem => hmem⟩
  · refine h.moved (by simp [hb, eq_comm]) (by simp [hpc, Pc.transit]) ?_ ?_ ?_ ?_ ?_
    · simp
    · simp [Pc.transit, eq_comm]
    · simp [Pc.binding]
    · rw [Running.pc_assign_self]
      simp only [Pc.releases, Option.some.injEq]
      exact fun r' hr' => hr' ▸ hshared
    · exact fun hmem => absurd hmem hlive
  · exact h.handed hne (by simp [hp]) (by simp) (by rw [hp]; rfl) (by rw [hp]; rfl) rfl rfl

theorem disowned (h : Custody cfg s place) {x : NativeStack Thread} (hlive : t ∉ s.exited)
    (hpc : s.running.pc t = .disowning r) (hx : s.objects[r]? = some x) :
    Custody cfg { s with
        objects := s.objects.set r { x with owner := none }
        running := s.running.assign t (.caching r) }
      (Function.update place r (.transit t false)) := by
  have hp : place r = .transit t true := h.place_of_transit hpc rfl
  have hnone : s.threadStack.lookup t = none := h.binding_of hpc (by simp) rfl
  have hout : r ∉ s.cachePool := by rw [(h.stack _).pooled, hp]; simp
  obtain ⟨hlt, -⟩ := List.getElem?_eq_some_iff.mp hx
  obtain ⟨y, hy, hsh⟩ := (h.thread t).shared r (by rw [hpc]; rfl)
  rw [hx] at hy
  cases hy
  have hshared : ∃ y, (s.objects.set r { x with owner := none })[r]? = some y ∧ y.shared = true :=
    ⟨_, List.getElem?_set_self hlt, hsh⟩
  refine h.move (t := t) (by rw [hp]; rfl) rfl ?_ (fun _ ht' => ht') ?_ (by simp) (fun _ => hshared)
    (fun _ _ => Iff.rfl) h.nodup h.limit ?_ ?_
  · exact fun t' ht' => ⟨rfl, Running.pc_assign_ne _ ht' _, fun hmem => hmem⟩
  · exact fun r' hr' => List.getElem?_set_ne hr'.symm
  · refine h.moved (by simp [hnone]) ?_ ?_ ?_ ?_ ?_ ?_
    · exact Pc.eq_of_transit (by rw [hpc]; rfl)
    · simp [hnone]
    · simp [Pc.transit, eq_comm]
    · simp [hnone, Pc.binding]
    · rw [Running.pc_assign_self]
      simp only [Pc.releases, Option.some.injEq]
      exact fun r' hr' => hr' ▸ hshared
    · exact fun hmem => absurd hmem hlive
  · refine ⟨?_, fun hle => ?_, fun y hy => ?_, ?_, fun y t' hy hh => ?_⟩
    · simp [hout]
    · simp only [List.length_set] at hle
      omega
    · rw [List.getElem?_set_self hlt] at hy
      cases hy
      simp [Place.owner]
    · simp
    · rw [List.getElem?_set_self hlt] at hy
      cases hy
      rw [Function.update_self] at hh
      exact (h.stack r).kind x t' hx (by rw [hp]; exact hh)

/-- The stack goes into `cachePool`, or nowhere. -/
theorem cached (h : Custody cfg s place) {pool : List Nat} (hlive : t ∉ s.exited)
    (hpc : s.running.pc t = .caching r)
    (hq : q = .pooled ∧ pool = s.cachePool ++ [r] ∧ s.cachePool.length < cfg.cacheLimit ∨
      q = .nowhere ∧ pool = s.cachePool) :
    Custody cfg { s with cachePool := pool, running := s.running.assign t .idle }
      (Function.update place r q) := by
  have hp : place r = .transit t false := h.place_of_transit hpc rfl
  have hne : place r ≠ .nowhere := by simp [hp]
  have hlt := h.lt_length hne
  have hnone : s.threadStack.lookup t = none := h.binding_of hpc (by simp) rfl
  have hout : r ∉ s.cachePool := by rw [(h.stack _).pooled, hp]; simp
  have hshared : s.Shared r := (h.thread t).shared r (by rw [hpc]; rfl)
  have hto : q.Hands t := by rcases hq with ⟨rfl, -⟩ | ⟨rfl, -⟩ <;> trivial
  refine h.move (t := t) (by rw [hp]; rfl) hto ?_ (fun _ ht' => ht') (fun _ _ => rfl)
    (Nat.le_refl _) (fun hs => hs)
    ?_ ?_ ?_ ?_ ?_
  · exact fun t' ht' => ⟨rfl, Running.pc_assign_ne _ ht' _, fun hmem => hmem⟩
  · intro r' hr'
    rcases hq with ⟨-, rfl, -⟩ | ⟨-, rfl⟩
    · simp [hr']
    · exact Iff.rfl
  · rcases hq with ⟨-, rfl, -⟩ | ⟨-, rfl⟩
    · exact List.nodup_append.mpr ⟨h.nodup, by simp, fun a ha b hb => by
        rw [List.mem_singleton.mp hb]
        exact fun heq => hout (heq ▸ ha)⟩
    · exact h.nodup
  · rcases hq with ⟨-, rfl, hroom⟩ | ⟨-, rfl⟩
    · rw [List.length_append]
      exact hroom
    · exact h.limit
  · refine h.moved (by simp [hnone]) ?_ ?_ ?_ ?_ ?_ ?_
    · exact Pc.eq_of_transit (by rw [hpc]; rfl)
    · rcases hq with ⟨rfl, -⟩ | ⟨rfl, -⟩ <;> simp [hnone]
    · rcases hq with ⟨rfl, -⟩ | ⟨rfl, -⟩ <;> simp [Pc.transit]
    · simp
    · simp [Pc.releases]
    · exact fun hmem => absurd hmem hlive
  · refine ⟨?_, fun hle => ?_, fun y hy => .inl ?_, fun _ => hshared, fun y t' hy hh => ?_⟩
    · rcases hq with ⟨rfl, rfl, -⟩ | ⟨rfl, rfl⟩
      · simp
      · simp [hout]
    · exact absurd hlt (Nat.not_lt.mpr hle)
    · rw [h.owner_eq hne hy, hp, Function.update_self]
      rcases hq with ⟨rfl, -⟩ | ⟨rfl, -⟩ <;> rfl
    · rw [Function.update_self] at hh
      rcases hq with ⟨rfl, -⟩ | ⟨rfl, -⟩ <;> cases hh

/-- The stack bound to a thread that ends is nowhere from then on. -/
theorem exit (h : Custody cfg s place) (hpc : s.running.pc t = .idle)
    (hr : s.threadStack.lookup t = some r ∨ s.threadStack.lookup t = none ∧ place r = .nowhere) :
    Custody cfg { s with threadStack := s.threadStack.erase t, exited := t :: s.exited }
      (Function.update place r .nowhere) := by
  have hp : place r = .bound t ∨ place r = .nowhere := by
    rcases hr with hb | ⟨-, hnow⟩
    · exact .inl (((h.thread t).bound r).mp hb)
    · exact .inr hnow
  have hout : r ∉ s.cachePool := by
    rw [(h.stack _).pooled]
    rcases hp with hp | hp <;> simp [hp]
  refine h.move (t := t) ?_ trivial ?_ (fun _ ht' => List.mem_cons_of_mem _ ht') (fun _ _ => rfl)
    (Nat.le_refl _)
    (fun hs => hs) (fun _ _ => Iff.rfl) h.nodup h.limit ?_ ?_
  · rcases hp with hp | hp
    · rw [hp]
      rfl
    · rw [hp]
      trivial
  · intro t' ht'
    exact ⟨by rw [lookup_erase_ite, if_neg ht'], rfl,
      fun hmem => (List.mem_cons.mp hmem).resolve_left ht'⟩
  · refine h.moved ?_ (by simp [hpc, Pc.transit]) ?_ ?_ ?_ ?_ ?_
    · rcases hr with hb | ⟨hnone, -⟩
      · simp [hb, eq_comm]
      · simp [hnone]
    · simp
    · simp [hpc, Pc.transit]
    · simp [hpc]
    · simp [hpc, Pc.releases]
    · simp [hpc]
  · refine ⟨?_, fun _ => Function.update_self _ _ _, fun y hy => ?_, ?_, fun y t' hy hh => ?_⟩
    · simp [hout]
    · rcases (h.stack r).owner y hy with ho | ⟨-, t', ht', ho⟩
      · rcases hp with hp | hp
        · exact .inr ⟨Function.update_self _ _ _, t, List.mem_cons_self, by rw [ho, hp]; rfl⟩
        · exact .inl (by rw [ho, hp, Function.update_self])
      · exact .inr ⟨Function.update_self _ _ _, t', List.mem_cons_of_mem _ ht', ho⟩
    · simp
    · rw [Function.update_self] at hh
      cases hh

/-- A move of a thread keeps the records in agreement. -/
theorem moves (h : Custody cfg s place) {act : Act} {out : Outcome} (hlive : t ∉ s.exited)
    (hm : Moves cfg s t act out s') : ∃ place', Custody cfg s' place' := by
  have hsame : ∀ r : Nat, (s.objects[r]?).map title = (s.objects[r]?).map title := fun _ => rfl
  cases hm with
  | hit thenPush hpc hb =>
    refine ⟨place, h.stay hlive hsame ?_ ?_ ?_⟩ <;> cases thenPush <;>
      simp [obtained, hpc, Pc.transit, hb, Pc.binding, Pc.releases]
  | missed thenPush hpc hb =>
    exact ⟨place, h.stay hlive hsame (by rw [hpc]; rfl) (fun _ => hb) (by simp [Pc.releases])⟩
  | took hpc hv hpool hx => exact ⟨_, h.took hlive hpc hv hpool hx⟩
  | noMemory hpc hpool =>
    exact ⟨place, h.stay hlive hsame (by rw [hpc]; rfl) (by simp) (by simp [Pc.releases])⟩
  | madeShared hpc hv hpool hsize => exact ⟨_, h.made hlive hpc rfl hv.symm rfl rfl rfl⟩
  | madeConfined hpc hv hsize => exact ⟨_, h.made hlive hpc rfl hv.symm rfl rfl rfl⟩
  | registered hpc =>
    exact ⟨place, h.stay hlive hsame (by rw [hpc]; rfl) (fun _ => h.binding_of hpc (by simp) rfl)
      (by simp [Pc.releases])⟩
  | bound hpc => exact ⟨_, h.set hlive hpc⟩
  | @called act r c x hcall hx =>
    have hc : c ≠ .close := by cases hcall <;> simp
    refine ⟨place, h.stay hlive (Table.map_set hx (title_exec t hc x)) ?_ (by simp)
      (by simp [Pc.releases])⟩
    cases hcall with
    | push hpc => rw [hpc]
    | allocate hpc => rw [hpc]
    | pushStack hpc => rw [hpc]; rfl
  | @checked r x hpc hx how =>
    have hb : s.threadStack.lookup t = some r :=
      (h.of_owner hlive hx how).resolve_right (by simp [hpc, Pc.transit])
    exact ⟨place, h.stay hlive hsame (by rw [hpc]; rfl) (fun _ => hb) (by simp [Pc.releases])⟩
  | refused hpc hx how =>
    exact ⟨place, h.stay hlive hsame (by rw [hpc]) (by simp) (by simp [Pc.releases])⟩
  | tested hpc hx hindex =>
    exact ⟨place, h.stay hlive hsame (by rw [hpc]; rfl) (fun _ => h.binding_of hpc (by simp) rfl)
      (by simp [Pc.releases])⟩
  | empty hpc hx h0 =>
    exact ⟨place, h.stay hlive hsame (by rw [hpc]; rfl) (by simp) (by simp [Pc.releases])⟩
  | restored hpc hx hmark =>
    exact ⟨place, h.stay hlive (Table.map_set hx (by rfl)) (by rw [hpc]; rfl)
      (fun _ => h.binding_of hpc (by simp) rfl)
      (by simp [Pc.releases])⟩
  | unrestored hpc hx hmark =>
    exact ⟨place, h.stay hlive hsame (by rw [hpc]; rfl) (by simp) (by simp [Pc.releases])⟩
  | dropped hpc hx =>
    exact ⟨place, h.stay hlive (Table.map_set hx (by rfl)) (by rw [hpc]; rfl)
      (fun _ => h.binding_of hpc (by simp) rfl)
      (by simp [Pc.releases])⟩
  | kept hpc hx hrel =>
    exact ⟨place, h.stay hlive hsame (by rw [hpc]; rfl) (by simp) (by simp [Pc.releases])⟩
  | @releasing vm r x hpc hx hshared =>
    refine ⟨place, h.stay hlive hsame (by rw [hpc]; rfl) (fun _ => h.binding_of hpc (by simp) rfl)
      ?_⟩
    simp only [Pc.releases, Option.some.injEq]
    exact fun r' hr' => hr' ▸ ⟨x, hx, hshared⟩
  | unbound hpc => exact ⟨_, h.unset hlive hpc⟩
  | disowned hpc hx => exact ⟨_, h.disowned hlive hpc hx⟩
  | cached hpc hroom => exact ⟨_, h.cached hlive hpc (.inl ⟨rfl, rfl, hroom⟩)⟩
  | discarded hpc hroom => exact ⟨_, h.cached hlive hpc (.inr ⟨rfl, rfl⟩)⟩
  | exited hpc =>
    cases hb : s.threadStack.lookup t with
    | some r => exact ⟨_, h.exit hpc (.inl hb)⟩
    | none =>
      exact ⟨_, h.exit (r := s.objects.length) hpc (.inr ⟨hb, (h.stack _).fresh (Nat.le_refl _)⟩)⟩

theorem init (cfg : Config Thread) : Custody cfg (State.init Thread) fun _ => .nowhere where
  thread t := ⟨by simp [State.init], by simp [State.init, Running.pc, Pc.transit],
    by simp [State.init, Running.pc], by simp [State.init, Running.pc, Pc.releases],
    by simp [State.init]⟩
  stack r := ⟨by simp [State.init], by simp, by simp [State.init], by simp, by simp [State.init]⟩
  nodup := List.nodup_nil
  limit := Nat.zero_le _

theorem step (h : Custody cfg s place) {l : Label Thread} {out : Outcome}
    (hs : s.step cfg l = some (out, s')) :
    ∃ place', Custody cfg s' place' := by
  rcases step_cases hs with ⟨t, act, -, hlive, -, hm⟩ | ⟨i, c, -, -, -, -, -, rfl⟩
  · exact h.moves hlive hm
  · have hc := h.thread cfg.cleaner
    exact ⟨place, h.keep (t := cfg.cleaner) rfl rfl rfl (fun _ => rfl) (fun _ _ => rfl) rfl
      hc.binding hc.shared
      fun hmem => (hc.exited hmem).1⟩

end Custody

/-- A run of the threads and the Cleaner, from the start. -/
abbrev Run (cfg : Config Thread) := Runs.Run (State.step cfg) (State.init Thread)

abbrev Trace (Thread : Type) := List (Runs.Step (State Thread) (Label Thread) Outcome)

theorem Run.custody {cfg : Config Thread} {trace : Trace Thread} {s : State Thread}
    (h : Run cfg trace s) :
    ∃ place, Custody cfg s place :=
  Runs.Run.invariant (fun s => ∃ place, Custody cfg s place) ⟨_, .init cfg⟩
    (fun ⟨_, h⟩ hs => h.step hs) h

/-! ## Exclusive ownership -/

/-- A record of the state that has the stack `r` at a place. -/
inductive State.At (s : State Thread) (r : Nat) : Place Thread → Prop where
  | bound {t} (h : s.threadStack.lookup t = some r) : At s r (.bound t)
  | pooled (h : r ∈ s.cachePool) : At s r .pooled
  | transit {t owned} (h : (s.running.pc t).transit = some (r, owned)) : At s r (.transit t owned)

/-- A step of `pushStack`: its call, or a statement of it. -/
def InPushStack (pc : Pc) (act : Act) : Prop :=
  match pc with
  | .idle => act = .pushStack
  | .missing thenPush | .registering _ _ thenPush | .setting _ thenPush => thenPush = true
  | .pushing _ => True
  | .testing _ | .restoring _ _ | .dropping _ _ | .returning _ _ | .unsetting _ | .disowning _
  | .caching _ => False

/-- The stack a call is made on. -/
def Act.target : Act → Option Nat
  | .push r _ | .allocate r _ _ | .close r => some r
  | .getStack | .pushStack | .exit | .next _ => none

namespace Custody

variable {cfg : Config Thread} {s s' : State Thread} {place : Nat → Place Thread} {t : Thread}
  {r : Nat}

theorem at_place (h : Custody cfg s place) {p : Place Thread} (hat : s.At r p) : place r = p := by
  cases hat with
  | bound hb => exact ((h.thread _).bound r).mp hb
  | pooled hmem => exact (h.stack r).pooled.mp hmem
  | transit htr => exact ((h.thread _).transit r _).mp htr

theorem pushStack_not_refused (h : Custody cfg s place) {act : Act} {out : Outcome}
    (hm : Moves cfg s t act out s') (hin : InPushStack (s.running.pc t) act) :
    out ≠ .threw NativeStack.wrongThread := by
  cases hm with
  | @called act r c x hcall hx =>
    cases hcall with
    | push hpc => rw [hpc] at hin; cases hin
    | allocate hpc => rw [hpc] at hin; cases hin
    | @pushStack _ vm hpc =>
      have hb : s.threadStack.lookup t = some r := h.binding_of hpc (by simp) rfl
      have hp : place r = .bound t := ((h.thread t).bound r).mp hb
      have how : x.owner = some t := by rw [h.owner_eq (by simp [hp]) hx, hp]; rfl
      have hnot := (push_owned how vm.heap).2
      simp only [NativeStack.exec, Method.bind_apply]
      cases hres : NativeStack.push vm.heap t x with
      | ok u x' => simp [Method.pure_apply, Outcome.of]
      | error e x' =>
        rw [hres] at hnot
        simpa [Outcome.of] using hnot
  | refused hpc hx how => rw [hpc] at hin; cases hin
  | hit thenPush hpc hb => cases thenPush <;> simp [obtained]
  | bound hpc => rename_i thenPush; cases thenPush <;> simp [obtained]
  | noMemory hpc hpool => simp [NativeStack.wrongThread]
  | empty hpc hx h0 => simp [NativeStack.wrongThread]
  | unrestored hpc hx hmark => simp [NativeStack.wrongThread]
  | _ => simp

end Custody

/-- Nothing has changed but that a thread outside of methods is noted as such. -/
def State.Unchanged (s s' : State Thread) : Prop :=
  ∃ running, s' = { s with running := running } ∧ ∀ t, running.pc t = s.running.pc t

theorem unchanged_assign {s : State Thread} {t : Thread} (hpc : s.running.pc t = .idle) :
    s.Unchanged { s with running := s.running.assign t .idle } := by
  refine ⟨_, rfl, fun t' => ?_⟩
  rw [Running.pc_assign]
  split
  · next heq => rw [heq, hpc]
  · rfl

/-- A call by a thread that is not the stack's owner is refused, and changes nothing. -/
theorem foreign_refused {cfg : Config Thread} {s s' : State Thread} {t : Thread} {act : Act}
    {out : Outcome} {r : Nat} {x : NativeStack Thread} (hm : Moves cfg s t act out s')
    (htarget : act.target = some r) (hx : s.objects[r]? = some x) (how : x.owner ≠ some t) :
    out = .threw NativeStack.wrongThread ∧ s.Unchanged s' := by
  cases hm with
  | hit thenPush hpc hb => cases thenPush <;> cases htarget
  | missed thenPush hpc hb => cases thenPush <;> cases htarget
  | @called act r' c x' hcall hx' =>
    have hexec := NativeStack.exec_foreign how c
    cases hcall with
    | push hpc | allocate hpc =>
      cases htarget
      rw [hx] at hx'
      cases hx'
      rw [hexec, Method.fields_error, Table.set_same hx]
      exact ⟨rfl, unchanged_assign hpc⟩
    | pushStack hpc => cases htarget
  | refused hpc hx' how' => exact ⟨rfl, unchanged_assign hpc⟩
  | checked hpc hx' how' =>
    cases htarget
    rw [hx] at hx'
    cases hx'
    exact absurd how' how
  | _ => cases htarget

/-- Stacks are owned exclusively. -/
structure Exclusive (cfg : Config Thread) (s : State Thread) : Prop where
  one_place : ∀ r p q, s.At r p → s.At r q → p = q
  once : s.cachePool.Nodup
  bound : ∀ t r, s.threadStack.lookup t = some r → ∃ x, s.objects[r]? = some x ∧ x.owner = some t
  pooled : ∀ r ∈ s.cachePool, ∃ x, s.objects[r]? = some x ∧ x.shared = true ∧ x.owner = none
  limit : s.cachePool.length ≤ cfg.cacheLimit
  pushStack : ∀ t act out s', s.step cfg (.thread t act) = some (out, s') →
    InPushStack (s.running.pc t) act → out ≠ .threw NativeStack.wrongThread
  foreign : ∀ t act out s', s.step cfg (.thread t act) = some (out, s') →
    ∀ r x, act.target = some r → s.objects[r]? = some x → x.owner ≠ some t →
      out = .threw NativeStack.wrongThread ∧ s.Unchanged s'

theorem Custody.exclusive {cfg : Config Thread} {s : State Thread} {place : Nat → Place Thread}
    (h : Custody cfg s place) : Exclusive cfg s where
  one_place r p q hp hq := (h.at_place hp).symm.trans (h.at_place hq)
  once := h.nodup
  bound t r hb := by
    have hp : place r = .bound t := h.at_place (.bound hb)
    have hne : place r ≠ .nowhere := by simp [hp]
    have hx := List.getElem?_eq_getElem (h.lt_length hne)
    exact ⟨_, hx, by rw [h.owner_eq hne hx, hp]; rfl⟩
  pooled r hmem := by
    have hp : place r = .pooled := h.at_place (.pooled hmem)
    obtain ⟨x, hx, hsh⟩ := (h.stack r).shared hp
    exact ⟨x, hx, hsh, by rw [h.owner_eq (by simp [hp]) hx, hp]; rfl⟩
  limit := h.limit
  pushStack t act out s' hs hin := by
    rcases step_cases hs with ⟨t', act', hl, -, -, hm⟩ | ⟨i, c, hl, -⟩
    · cases hl
      exact h.pushStack_not_refused hm hin
    · cases hl
  foreign t act out s' hs r x htarget hx how := by
    rcases step_cases hs with ⟨t', act', hl, -, -, hm⟩ | ⟨i, c, hl, -⟩
    · cases hl
      exact foreign_refused hm htarget hx how
    · cases hl

/-- **Exclusive ownership.** In every state a run leads to, a stack is in one
place at most: bound by one thread's `threadStack`, once in `cachePool`, or in
transit in one thread's `getStack` or `close`. A thread owns the stack it has
bound; the stacks in `cachePool` are shared and have no owner, and there are no
more than `CACHE_LIMIT`. So no statement of a `pushStack`, on any thread, is
refused with `WrongThreadException`; and a call by a thread that is not the
owner always is, and changes nothing. -/
theorem exclusive_ownership {cfg : Config Thread} {trace : Trace Thread} {s : State Thread}
    (h : Run cfg trace s) :
    Exclusive cfg s := by
  obtain ⟨place, hc⟩ := h.custody
  exact hc.exclusive

/-- Two virtual threads, one after the other on the same stack. -/
theorem exclusive_ownership_handed_over :
    let cfg : Config Nat := ⟨64, by decide, 8, fun _ => true, 99⟩
    ∃ trace s, Run cfg trace s ∧ s.threadStack.lookup 1 = some 0 ∧ s.cachePool = [] ∧
    Exclusive cfg s := by
  intro cfg
  let next (t : Nat) : Label Nat :=
    .thread t (.next ⟨fun _ => true, some ⟨0x1000, 64, by decide, by decide⟩⟩)
  obtain ⟨s, hs⟩ : ∃ s, Runs.final (State.step cfg) (State.init Nat)
      (.thread 0 .pushStack :: List.replicate 3 (next 0) ++
        .thread 0 (.close 0) :: List.replicate 7 (next 0) ++
        .thread 1 .getStack :: List.replicate 2 (next 1)) = some s := ⟨_, rfl⟩
  obtain ⟨trace, hrun⟩ := Runs.exists_run hs
  refine ⟨trace, s, hrun, ?_, ?_, exclusive_ownership hrun⟩
  · cases hs
    decide
  · cases hs
    decide

end FfiBenchmark.Pool
