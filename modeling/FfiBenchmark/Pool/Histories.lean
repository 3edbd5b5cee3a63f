/-
Every stack of a run has a history of calls and handovers, each in one step.

`close` goes statement by statement, but its stack is in the hands of one
thread, so no other thread's call finds the stack partway through it: what holds
of a stack after any history of calls (`NativeStack.Reachable`) holds of the
stacks in `cachePool`, and of every stack no `close` is partway through.
-/
import FfiBenchmark.Pool.Ownership

namespace FfiBenchmark.Pool

open NativeStack (Call Event Effect exec_effect)

variable {Thread : Type}

/-- The stack some fields of which a `close` at that statement has written. -/
def Pc.partway : Pc → Option Nat
  | .dropping r _ | .returning r _ | .unsetting r | .disowning r => some r
  | .idle | .missing _ | .registering _ _ _ | .setting _ _ | .pushing _ | .testing _
  | .restoring _ _ | .caching _ => none

theorem Pc.stack_of_partway {pc : Pc} {r : Nat} (h : pc.partway = some r) : pc.stack = some r := by
  cases pc <;> first | exact h | cases h

/-- The fields `x` of a stack when the `close` that returns to `mark` is at a
statement, and `x₀` before. -/
def Partway (ms : List Long) (mark : Long) (x₀ x : NativeStack Thread) : Pc → Prop
  | .dropping _ prevIndex => prevIndex = ms.length ∧ x = { x₀ with offset := mark }
  | .returning _ prevIndex =>
    prevIndex = ms.length ∧ x = { x₀ with offset := mark, frameIndex := ms.length }
  | .unsetting _ | .disowning _ =>
    ms = [] ∧ x₀.shared = true ∧ x = { x₀ with offset := mark, frameIndex := 0 }
  | .idle | .missing _ | .registering _ _ _ | .setting _ _ | .pushing _ | .testing _
  | .restoring _ _ | .caching _ => False

theorem Partway.wf {ms : List Long} {mark : Long} {x₀ : NativeStack Thread} {x : NativeStack Thread}
    {pc : Pc} (h : x₀.Wf) (hm : x₀.marks = ms ++ [mark]) (hx : Partway ms mark x₀ x pc) : x.Wf := by
  have hle := h.index_le
  have hindex := h.frameIndex_eq hm
  have hmark := h.marks_le mark (by simp [hm])
  have htake : ∀ m ∈ x₀.frames.take ms.length, m.toNat ≤ x₀.segment.byteSize.toNat := by
    intro m hmem
    exact h.marks_le m (List.take_subset_take_left _ (by omega) hmem)
  cases pc with
  | dropping r prevIndex =>
    obtain ⟨-, rfl⟩ := hx
    exact h.placed hmark
  | returning r prevIndex =>
    obtain ⟨-, rfl⟩ := hx
    exact ⟨by dsimp only; omega, h.frames_length, h.frames_le, hmark, htake⟩
  | unsetting r | disowning r =>
    obtain ⟨rfl, -, rfl⟩ := hx
    exact ⟨by dsimp only; omega, h.frames_length, h.frames_le, hmark, htake⟩
  | _ => cases hx

theorem marks_concat {x : NativeStack Thread} (h : x.Wf) {prevIndex : Nat} {mark : Long}
    (hindex : x.frameIndex = prevIndex + 1) (hmark : x.frames[prevIndex]? = some mark) :
    x.marks = x.frames.take prevIndex ++ [mark] ∧ (x.frames.take prevIndex).length = prevIndex := by
  have hle := h.index_le
  refine ⟨?_, by rw [List.length_take]; omega⟩
  rw [NativeStack.marks, hindex, List.take_add_one, hmark]
  rfl

variable [DecidableEq Thread]

/-- The fields `x` of the stack `r` come from a history of calls, but for a
`close` that a thread is partway through. -/
inductive Trail (running : Running Thread) (r : Nat) (x : NativeStack Thread) : Prop where
  | whole (hnone : ∀ t, (running.pc t).partway ≠ some r) (hreach : x.Reachable)
  | partway {t : Thread} {x₀ : NativeStack Thread} {ms : List Long} {mark : Long}
      (hpart : (running.pc t).partway = some r) (hreach : x₀.Reachable) (how : x₀.owner = some t)
      (hm : x₀.marks = ms ++ [mark]) (hx : Partway ms mark x₀ x (running.pc t))

structure Histories (cfg : Config Thread) (s : State Thread) : Prop where
  trail : ∀ (r : Nat) x, s.objects[r]? = some x → Trail s.running r x
  index : ∀ t r prevIndex x, s.running.pc t = .restoring r prevIndex → s.objects[r]? = some x →
    x.frameIndex = prevIndex + 1
  size : ∀ (r : Nat) x, s.objects[r]? = some x → x.segment.byteSize = cfg.stackSize

variable {cfg : Config Thread} {s s' : State Thread} {place : Nat → Place Thread} {t : Thread}
  {r : Nat} {x x' : NativeStack Thread} {pc : Pc}

/-- What holds of a stack at any time. -/
theorem Trail.wf {running : Running Thread} (h : Trail running r x) : x.Wf := by
  cases h with
  | whole hnone hreach => exact hreach.wf
  | partway hpart hreach how hm hx => exact hx.wf hreach.wf hm

/-- Steps of other threads, and of this one elsewhere. -/
theorem Trail.frame {running : Running Thread} (h : Trail running r x)
    (hpc : (running.pc t).partway ≠ some r) (hpc' : pc.partway ≠ some r) :
    Trail (running.assign t pc) r x := by
  cases h with
  | whole hnone hreach =>
    refine .whole (fun t' => ?_) hreach
    rw [Running.pc_assign]
    split
    · exact hpc'
    · exact hnone t'
  | @partway t' x₀ ms mark hpart hreach how hm hx =>
    have heq : t' ≠ t := fun heq => hpc (heq ▸ hpart)
    rw [← Running.pc_assign_ne running heq pc] at hpart hx
    exact .partway hpart hreach how hm hx

/-- A stack that only `t` could be partway through a `close` of, and `t` is not. -/
theorem Trail.reachable {running : Running Thread} (h : Trail running r x)
    (halone : ∀ t', t' ≠ t → (running.pc t').stack ≠ some r)
    (hpart : (running.pc t).partway ≠ some r) :
    x.Reachable := by
  cases h with
  | whole hnone hreach => exact hreach
  | @partway t' x₀ ms mark hpart' hreach how hm hx =>
    by_cases heq : t' = t
    · exact absurd (heq ▸ hpart') hpart
    · exact absurd (Pc.stack_of_partway hpart') (halone t' heq)

theorem Trail.partway_of {running : Running Thread} (h : Trail running r x)
    (halone : ∀ t', t' ≠ t → (running.pc t').stack ≠ some r)
    (hpart : (running.pc t).partway = some r) :
    ∃ x₀ ms mark, x₀.Reachable ∧ x₀.owner = some t ∧ x₀.marks = ms ++ [mark] ∧
      Partway ms mark x₀ x (running.pc t) := by
  cases h with
  | whole hnone hreach => exact absurd hpart (hnone t)
  | @partway t' x₀ ms mark hpart' hreach how hm hx =>
    by_cases heq : t' = t
    · subst heq
      exact ⟨x₀, ms, mark, hreach, how, hm, hx⟩
    · exact absurd (Pc.stack_of_partway hpart') (halone t' heq)

theorem Trail.of_reachable {running : Running Thread} (hreach : x.Reachable)
    (halone : ∀ t', t' ≠ t → (running.pc t').stack ≠ some r) (hpart : pc.partway ≠ some r) :
    Trail (running.assign t pc) r x := by
  refine .whole (fun t' => ?_) hreach
  rw [Running.pc_assign]
  split
  · exact hpart
  · next heq => exact fun hp => halone t' heq (Pc.stack_of_partway hp)

/-- `close`, in one step. -/
theorem reachable_closedAt {x₀ : NativeStack Thread} {ms : List Long} {mark : Long}
    (h : x₀.Reachable) (how : x₀.owner = some t) (hm : x₀.marks = ms ++ [mark]) :
    (x₀.closedAt mark).Reachable := by
  have happly := h.apply (.call t .close)
  simp only [Event.apply, NativeStack.exec, Method.bind_apply,
    NativeStack.close_ok h.wf how hm] at happly
  exact happly

namespace Histories

/-- `t` goes on to `pc` without writing a field of a stack. -/
theorem stay (h : Histories cfg s) {threadStack : AList fun _ : Thread => Nat}
    {cachePool : List Nat} {cleanables : List Cleanable} (hpart : (s.running.pc t).partway = none)
    (hpart' : pc.partway = none)
    (hindex : ∀ r prevIndex x, pc = .restoring r prevIndex → s.objects[r]? = some x →
      x.frameIndex = prevIndex + 1) :
    Histories cfg { s with
      threadStack := threadStack
      cachePool := cachePool
      cleanables := cleanables
      running := s.running.assign t pc } where
  trail r x hx := by
    refine (h.trail r x hx).frame ?_ ?_
    · simp [hpart]
    · simp [hpart']
  index t' r prevIndex x hpc hx := by
    dsimp only at hpc
    rw [Running.pc_assign] at hpc
    split at hpc
    · exact hindex r prevIndex x hpc hx
    · exact h.index t' r prevIndex x hpc hx
  size := h.size

/-- `t` goes on to `pc` and leaves the stack `r` with the fields `x'`. -/
theorem write (h : Histories cfg s) {objects : List (NativeStack Thread)}
    {threadStack : AList fun _ : Thread => Nat} {cachePool : List Nat} (hx : s.objects[r]? = some x)
    (hobjects : objects = s.objects.set r x')
    (hpart : ∀ r', (s.running.pc t).partway = some r' → r' = r)
    (hpart' : ∀ r', pc.partway = some r' → r' = r)
    (hpc : ∀ r' prevIndex, pc ≠ .restoring r' prevIndex)
    (halone : ∀ t', t' ≠ t → (s.running.pc t').stack ≠ some r) (hsize : x'.segment = x.segment)
    (htrail : Trail (s.running.assign t pc) r x') :
    Histories cfg { s with
      objects := objects
      threadStack := threadStack
      cachePool := cachePool
      running := s.running.assign t pc } := by
  subst hobjects
  refine ⟨fun r' y hy => ?_, fun t' r' prevIndex y hpc' hy => ?_, fun r' y hy => ?_⟩
  · obtain ⟨rfl, rfl⟩ | ⟨hne, hy⟩ := Table.set_cases hy
    · exact htrail
    · exact (h.trail r' y hy).frame (fun hp => hne (hpart r' hp)) fun hp => hne (hpart' r' hp)
  · dsimp only at hpc'
    rw [Running.pc_assign] at hpc'
    split at hpc'
    · exact absurd hpc' (hpc r' prevIndex)
    · next ht' =>
      have heq : r ≠ r' := by
        rintro rfl
        exact halone t' ht' (by rw [hpc']; rfl)
      rw [List.getElem?_set_ne heq] at hy
      exact h.index t' r' prevIndex y hpc' hy
  · obtain ⟨rfl, rfl⟩ | ⟨-, hy⟩ := Table.set_cases hy
    · rw [hsize]
      exact h.size r' x hx
    · exact h.size r' y hy

/-- `t` goes on with a `close` of the stack `r`. -/
theorem midway (h : Histories cfg s) {objects : List (NativeStack Thread)}
    {threadStack : AList fun _ : Thread => Nat} {x₀ : NativeStack Thread} {ms : List Long}
    {mark : Long} (hx : s.objects[r]? = some x) (hobjects : objects = s.objects.set r x')
    (hpart : ∀ r', (s.running.pc t).partway = some r' → r' = r) (hpart' : pc.partway = some r)
    (halone : ∀ t', t' ≠ t → (s.running.pc t').stack ≠ some r) (hsize : x'.segment = x.segment)
    (hreach : x₀.Reachable) (how : x₀.owner = some t) (hm : x₀.marks = ms ++ [mark])
    (hnext : Partway ms mark x₀ x' pc) :
    Histories cfg { s with
      objects := objects
      threadStack := threadStack
      running := s.running.assign t pc } := by
  have hpc : ∀ r' prevIndex, pc ≠ .restoring r' prevIndex := by
    intro r' prevIndex heq
    rw [heq] at hpart'
    cases hpart'
  refine h.write hx hobjects hpart (fun r' hr => ?_) hpc halone hsize ?_
  · rw [hpart'] at hr
    exact (Option.some.inj hr).symm
  · have hself : (s.running.assign t pc).pc t = pc := Running.pc_assign_self _ _ _
    exact .partway (by rw [hself]; exact hpart') hreach how hm (by rw [hself]; exact hnext)

/-- `t` leaves the stack `r` as a history of calls does. -/
theorem whole (h : Histories cfg s) {objects : List (NativeStack Thread)}
    {threadStack : AList fun _ : Thread => Nat} {cachePool : List Nat} (hx : s.objects[r]? = some x)
    (hobjects : objects = s.objects.set r x')
    (hpart : ∀ r', (s.running.pc t).partway = some r' → r' = r) (hpart' : pc.partway = none)
    (hpc : ∀ r' prevIndex, pc ≠ .restoring r' prevIndex)
    (halone : ∀ t', t' ≠ t → (s.running.pc t').stack ≠ some r) (hsize : x'.segment = x.segment)
    (hreach : x'.Reachable) :
    Histories cfg { s with
      objects := objects
      threadStack := threadStack
      cachePool := cachePool
      running := s.running.assign t pc } :=
  h.write hx hobjects hpart (by simp [hpart']) hpc halone hsize
    (.of_reachable hreach halone (by simp [hpart']))

/-- A new stack has a history of nothing. -/
theorem made (h : Histories cfg s) (hc : Custody cfg s place) {segment : MemorySegment}
    {shared : Bool} {sharedArena : List MemorySegment} {arenas : List (Arena Thread)}
    (hsize : segment.byteSize = cfg.stackSize) (hpart : (s.running.pc t).partway = none)
    (hpart' : pc.partway = none) (hpc : ∀ r' prevIndex, pc ≠ .restoring r' prevIndex) :
    Histories cfg { s with
      objects := s.objects ++ [.new t segment shared]
      sharedArena := sharedArena
      arenas := arenas
      running := s.running.assign t pc } := by
  have hfresh : place s.objects.length = .nowhere := (hc.stack _).fresh (Nat.le_refl _)
  have halone : ∀ t', (s.running.pc t').stack ≠ some s.objects.length := by
    intro t' hr
    have := hc.holder_of_stack hr
    rw [hfresh] at this
    cases this
  have hcases : ∀ (r : Nat) y, (s.objects ++ [NativeStack.new t segment shared])[r]? = some y →
      s.objects[r]? = some y ∨ r = s.objects.length ∧ y = NativeStack.new t segment shared := by
    intro r y hy
    rcases Nat.lt_trichotomy r s.objects.length with hlt | rfl | hgt
    · rw [List.getElem?_append_left hlt] at hy
      exact .inl hy
    · rw [List.getElem?_concat_length] at hy
      exact .inr ⟨rfl, (Option.some.inj hy).symm⟩
    · have hle : (s.objects ++ [NativeStack.new t segment shared]).length ≤ r := by
        rw [List.length_append, List.length_singleton]
        omega
      rw [List.getElem?_eq_none hle] at hy
      cases hy
  refine ⟨fun r y hy => ?_, fun t' r prevIndex y hpc' hy => ?_, fun r y hy => ?_⟩
  · rcases hcases r y hy with hy | ⟨rfl, rfl⟩
    · exact (h.trail r y hy).frame (by simp [hpart]) (by simp [hpart'])
    · exact .of_reachable (.new t segment shared) (fun t' ht' => halone t') (by simp [hpart'])
  · dsimp only at hpc'
    rw [Running.pc_assign] at hpc'
    split at hpc'
    · exact absurd hpc' (hpc r prevIndex)
    · rcases hcases r y hy with hy | ⟨rfl, rfl⟩
      · exact h.index t' r prevIndex y hpc' hy
      · exact absurd (by rw [hpc']; rfl) (halone t')
  · rcases hcases r y hy with hy | ⟨rfl, rfl⟩
    · exact h.size r y hy
    · exact hsize

theorem moves (h : Histories cfg s) (hc : Custody cfg s place) {act : Act} {out : Outcome}
    (hlive : t ∉ s.exited) (hm : Moves cfg s t act out s') :
    Histories cfg s' := by
  have mine : ∀ {r}, (s.running.pc t).stack = some r → ∀ t', t' ≠ t →
      (s.running.pc t').stack ≠ some r :=
    fun hr => hc.alone (.inl (hc.holder_of_stack hr))
  cases hm with
  | missed _ hpc _ | noMemory hpc | registered hpc | checked hpc _ _ | refused hpc _ _
  | empty hpc _ _ | unrestored hpc _ _ | cached hpc _ | discarded hpc _ =>
    exact h.stay (by rw [hpc]; rfl) rfl (by simp)
  | hit thenPush hpc hb =>
    exact h.stay (by rw [hpc]; rfl) (by cases thenPush <;> rfl)
      (by cases thenPush <;> simp [obtained])
  | @took vm r x pool thenPush hpc hv hpool hx =>
    have hp : place r = .pooled := by rw [← (hc.stack r).pooled, hpool]; simp
    have halone := hc.alone (t := t) (r := r) (.inr (by rw [hp]; rfl))
    have hreach := (h.trail r x hx).reachable halone (by simp [hpc, Pc.partway])
    obtain ⟨y, hy, hsh⟩ := (hc.stack r).shared hp
    rw [hx] at hy
    cases hy
    have how : x.owner = none := by rw [hc.owner_eq (by simp [hp]) hx, hp]; rfl
    have happly := hreach.apply (.handOver t)
    rw [Event.apply, if_pos ⟨hsh, how⟩] at happly
    exact h.whole hx rfl (by simp [hpc, Pc.partway]) rfl (by simp) halone rfl happly
  | madeShared hpc hv hpool hsize => exact h.made hc hsize (by rw [hpc]; rfl) rfl (by simp)
  | madeConfined hpc hv hsize => exact h.made hc hsize (by rw [hpc]; rfl) rfl (by simp)
  | bound hpc =>
    rename_i thenPush; exact h.stay (by rw [hpc]; rfl) (by cases thenPush <;> rfl)
      (by cases thenPush <;> simp [obtained])
  | @called act r c x hcall hx =>
    have hpart : (s.running.pc t).partway = none := by
      cases hcall with
      | push hpc | allocate hpc | pushStack hpc => rw [hpc]; rfl
    by_cases how : x.owner = some t
    · have halone := hc.alone (.inl (hc.holder_of_owner hlive hx how))
      have hreach := (h.trail r x hx).reachable halone (by simp [hpart])
      exact h.whole hx rfl (by simp [hpart]) rfl (by simp) halone
        (exec_effect hreach.wf t c).segment
        (hreach.apply (.call t c))
    · rw [NativeStack.exec_foreign how, Method.fields_error, Table.set_same hx]
      exact h.stay hpart rfl (by simp)
  | @tested vm r x prevIndex hpc hx hindex =>
    refine h.stay (by rw [hpc]; rfl) rfl fun r' prevIndex' y heq hy => ?_
    cases heq
    rw [hx] at hy
    cases hy
    exact hindex
  | @restored vm r x prevIndex mark hpc hx hmark =>
    have halone := mine (by rw [hpc]; rfl)
    have hreach := (h.trail r x hx).reachable halone (by simp [hpc, Pc.partway])
    obtain ⟨hm, hlen⟩ := marks_concat hreach.wf (h.index t r prevIndex x hpc hx) hmark
    have how := hc.owner_of_binding hpc rfl hx
    exact h.midway hx rfl (by simp [hpc, Pc.partway]) rfl halone rfl hreach how hm ⟨hlen.symm, rfl⟩
  | @dropped vm r x prevIndex hpc hx =>
    have halone := mine (by rw [hpc]; rfl)
    obtain ⟨x₀, ms, mark, hreach, how, hm, hpart⟩ :=
      (h.trail r x hx).partway_of halone (by rw [hpc]; rfl)
    rw [hpc] at hpart
    obtain ⟨rfl, rfl⟩ := hpart
    exact h.midway hx rfl (by simp [hpc, Pc.partway]) rfl halone rfl hreach how hm ⟨rfl, rfl⟩
  | @kept vm r x prevIndex hpc hx hrel =>
    have halone := mine (by rw [hpc]; rfl)
    obtain ⟨x₀, ms, mark, hreach, how, hm, hpart⟩ :=
      (h.trail r x hx).partway_of halone (by rw [hpc]; rfl)
    rw [hpc] at hpart
    obtain ⟨rfl, rfl⟩ := hpart
    have hrel₀ : ¬ x₀.Releases := by
      rw [NativeStack.Releases, hreach.wf.frameIndex_eq hm]
      exact fun hr => hrel ⟨by omega, hr.2⟩
    have hclosed := reachable_closedAt hreach how hm
    rw [NativeStack.closedAt, if_neg hrel₀, hreach.wf.frameIndex_eq hm] at hclosed
    exact h.whole hx (Table.set_same hx).symm (by simp [hpc, Pc.partway]) rfl (by simp) halone rfl
      hclosed
  | @releasing vm r x hpc hx hshared =>
    have halone := mine (by rw [hpc]; rfl)
    obtain ⟨x₀, ms, mark, hreach, how, hm, hpart⟩ :=
      (h.trail r x hx).partway_of halone (by rw [hpc]; rfl)
    rw [hpc] at hpart
    obtain ⟨hlen, rfl⟩ := hpart
    obtain rfl := List.length_eq_zero_iff.mp hlen.symm
    exact h.midway hx (Table.set_same hx).symm (by simp [hpc, Pc.partway]) rfl halone rfl hreach how
      hm ⟨rfl, hshared, rfl⟩
  | @unbound vm r hpc =>
    have halone := mine (by rw [hpc]; rfl)
    have hp : place r = .bound t := ((hc.thread t).bound r).mp (hc.binding_of hpc (by simp) rfl)
    have hx := List.getElem?_eq_getElem (hc.lt_length (show place r ≠ .nowhere by simp [hp]))
    obtain ⟨x₀, ms, mark, hreach, how, hm, hpart⟩ :=
      (h.trail r _ hx).partway_of halone (by rw [hpc]; rfl)
    rw [hpc] at hpart
    exact h.midway hx (Table.set_same hx).symm (by simp [hpc, Pc.partway]) rfl halone rfl
      hreach how hm hpart
  | @disowned vm r x hpc hx =>
    have halone := mine (by rw [hpc]; rfl)
    obtain ⟨x₀, ms, mark, hreach, how, hm, hpart⟩ :=
      (h.trail r x hx).partway_of halone (by rw [hpc]; rfl)
    rw [hpc] at hpart
    obtain ⟨rfl, hshared, rfl⟩ := hpart
    have hrel : x₀.Releases := ⟨hreach.wf.frameIndex_eq hm, hshared⟩
    have hclosed := reachable_closedAt hreach how hm
    rw [NativeStack.closedAt, if_pos hrel, hreach.wf.frameIndex_eq hm] at hclosed
    exact h.whole hx rfl (by simp [hpc, Pc.partway]) rfl (by simp) halone rfl hclosed
  | exited hpc => exact ⟨h.trail, h.index, h.size⟩

theorem init (cfg : Config Thread) : Histories cfg (State.init Thread) where
  trail := by simp [State.init]
  index := by simp [State.init]
  size := by simp [State.init]

theorem step (h : Histories cfg s) (hc : Custody cfg s place) {l : Label Thread} {out : Outcome}
    (hs : s.step cfg l = some (out, s')) : Histories cfg s' := by
  rcases step_cases hs with ⟨t, act, -, hlive, -, hm⟩ | ⟨i, c, -, -, -, -, -, rfl⟩
  · exact h.moves hc hlive hm
  · exact ⟨h.trail, h.index, h.size⟩

end Histories

/-- What holds in every state a run leads to. -/
theorem Run.holds {trace : Trace Thread} (h : Run cfg trace s) :
    ∃ place, Custody cfg s place ∧ Histories cfg s := by
  refine Runs.Run.invariant (fun s => ∃ place, Custody cfg s place ∧ Histories cfg s)
    ⟨_, .init cfg, .init cfg⟩ ?_ h
  rintro s l out s' ⟨place, hc, hh⟩ hs
  obtain ⟨place', hc'⟩ := hc.step hs
  exact ⟨place', hc', hh.step hc hs⟩

/-- **A stack that no `close` is partway through is one that calls and
handovers made**, whatever the threads of the run did in between. -/
theorem Run.stack_reachable {trace : Trace Thread} (h : Run cfg trace s)
    (hx : s.objects[r]? = some x) (hwhole : ∀ t, (s.running.pc t).partway ≠ some r) :
    x.Reachable := by
  obtain ⟨place, -, hh⟩ := h.holds
  cases hh.trail r x hx with
  | whole hnone hreach => exact hreach
  | @partway t x₀ ms mark hpart hreach how hm hx => exact absurd hpart (hwhole t)

end FfiBenchmark.Pool
