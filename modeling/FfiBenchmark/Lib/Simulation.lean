/-
A transition system whose steps are matched by those of another.

The other system is a relation `Next` between states and events. `commit` says
of a step which event it is there, or that it is none: a method that goes
statement by statement commits at one of them. `Run.simulate`: if every step is
matched, every run is, and the events of the matching run are those that the
steps of the run committed, in their order.
-/
import FfiBenchmark.Lib.Runs

namespace Runs

variable {State Label Outcome Abs Event : Type}

/-- Sequences of events. -/
inductive Path (Next : Abs → Event → Abs → Prop) (init : Abs) : List Event → Abs → Prop where
  | nil : Path Next init [] init
  | snoc {events a e a'} (path : Path Next init events a) (h : Next a e a') :
    Path Next init (events ++ [e]) a'

/-- `a` goes on to `a'` with the event, or stays without one. -/
def Follows (Next : Abs → Event → Abs → Prop) (a : Abs) : Option Event → Abs → Prop
  | some e, a' => Next a e a'
  | none, a' => a' = a

variable {Next : Abs → Event → Abs → Prop} {init a a' : Abs} {events : List Event}

theorem Path.follow {e : Option Event} (path : Path Next init events a) (h : Follows Next a e a') :
    Path Next init (events ++ e.toList) a' := by
  cases e with
  | none =>
    obtain rfl : a' = a := h
    rwa [Option.toList_none, List.append_nil]
  | some e => exact path.snoc h

/-- What holds at first, and is kept by every event beside what is folded from the events. -/
theorem Path.invariant_fold {β : Type} (f : β → Event → β) (b : β) (I : β → Abs → Prop)
    (hinit : I b init) (hstep : ∀ {b a e a'}, I b a → Next a e a' → I (f b e) a')
    (h : Path Next init events a) :
    I (events.foldl f b) a := by
  induction h with
  | nil => exact hinit
  | snoc _ hs ih =>
    rw [List.foldl_append]
    exact hstep ih hs

/-- The events that the steps of a run committed. -/
def commits (commit : Step State Label Outcome → Option Event)
    (trace : List (Step State Label Outcome)) : List Event :=
  trace.filterMap commit

theorem commits_concat (commit : Step State Label Outcome → Option Event)
    (trace : List (Step State Label Outcome)) (e : Step State Label Outcome) :
    commits commit (trace ++ [e]) = commits commit trace ++ (commit e).toList := by
  rw [commits, List.filterMap_append]
  cases h : commit e with
  | none => simp [commits, h]
  | some ev => simp [commits, h]

/-- **Forward simulation.** -/
theorem Run.simulate {step : State → Label → Option (Outcome × State)} {start s : State}
    {trace : List (Step State Label Outcome)} (commit : Step State Label Outcome → Option Event)
    (R : State → Abs → Prop) (hstart : R start init)
    (hstep : ∀ {s l o s' a}, R s a → step s l = some (o, s') →
      ∃ a', Follows Next a (commit ⟨s, l, o⟩) a' ∧ R s' a')
    (h : Run step start trace s) :
    ∃ a, Path Next init (commits commit trace) a ∧ R s a := by
  induction h with
  | nil => exact ⟨init, .nil, hstart⟩
  | snoc _ hs ih =>
    obtain ⟨a, path, hr⟩ := ih
    obtain ⟨a', hfollows, hr'⟩ := hstep hr hs
    rw [commits_concat]
    exact ⟨a', path.follow hfollows, hr'⟩

end Runs
