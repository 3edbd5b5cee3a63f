/-
Runs of a labelled transition system.

`step s l` is what the system does in `s` on the label `l`: an outcome and the
next state, or nothing where `l` is not possible. A run keeps the steps it took,
each with the state it was taken in, so that a property of runs can speak of
what happened on the way.
-/
import Mathlib.Data.List.Induction

namespace Runs

variable {State Label Outcome : Type}

/-- One step of a run. -/
structure Step (State Label Outcome : Type) where
  before : State
  label : Label
  outcome : Outcome

variable {step : State → Label → Option (Outcome × State)} {init s : State}
  {trace : List (Step State Label Outcome)}

inductive Run (step : State → Label → Option (Outcome × State)) (init : State) :
    List (Step State Label Outcome) → State → Prop where
  | nil : Run step init [] init
  | snoc {trace s l o s'} (run : Run step init trace s) (h : step s l = some (o, s')) :
      Run step init (trace ++ [⟨s, l, o⟩]) s'

/-- What holds at first and is kept by every step holds after every run. -/
theorem Run.invariant (I : State → Prop) (hinit : I init)
    (hstep : ∀ {s l o s'}, I s → step s l = some (o, s') → I s')
    (h : Run step init trace s) : I s := by
  induction h with
  | nil => exact hinit
  | snoc _ hs ih => exact hstep ih hs

theorem Run.of_concat {e : Step State Label Outcome} (h : Run step init (trace ++ [e]) s) :
    Run step init trace e.before ∧ step e.before e.label = some (e.outcome, s) := by
  generalize hcons : trace ++ [e] = all at h
  cases h with
  | nil => simp at hcons
  | snoc run hs =>
    obtain ⟨rfl, hlast⟩ := List.append_inj' hcons rfl
    obtain rfl := List.singleton_inj.mp hlast
    exact ⟨run, hs⟩

/-- Every step of a run was possible, in the state that the steps before it led to. -/
theorem Run.step_at {before after : List (Step State Label Outcome)} {e : Step State Label Outcome}
    (h : Run step init (before ++ e :: after) s) :
    Run step init before e.before ∧ ∃ s', step e.before e.label = some (e.outcome, s') := by
  induction after using List.reverseRecOn generalizing s with
  | nil =>
    obtain ⟨run, hs⟩ := h.of_concat
    exact ⟨run, s, hs⟩
  | append_singleton after e' ih =>
    rw [← List.cons_append, ← List.append_assoc] at h
    exact ih h.of_concat.1

/-- The state a sequence of labels leads to, if all of them are possible. -/
def final (step : State → Label → Option (Outcome × State)) (s : State) : List Label → Option State
  | [] => some s
  | l :: ls => match step s l with
    | some (_, s') => final step s' ls
    | none => none

theorem Run.append_final {ls : List Label} (h : Run step init trace s) {s' : State}
    (hf : final step s ls = some s') : ∃ trace', Run step init trace' s' := by
  induction ls generalizing s trace with
  | nil =>
    cases hf
    exact ⟨trace, h⟩
  | cons l ls ih =>
    simp only [final] at hf
    split at hf
    · next hs => exact ih (h.snoc hs) hf
    · cases hf

/-- The labels of a sequence lead along a run. -/
theorem exists_run {ls : List Label} (hf : final step init ls = some s) :
    ∃ trace, Run step init trace s :=
  Run.nil.append_final hf

/-- The steps that a sequence of labels takes, and the state they lead to. -/
def record (step : State → Label → Option (Outcome × State)) (s : State) :
    List Label → Option (List (Step State Label Outcome) × State)
  | [] => some ([], s)
  | l :: ls => match step s l with
    | some (o, s') => (record step s' ls).map fun r => (⟨s, l, o⟩ :: r.1, r.2)
    | none => none

theorem Run.append_record {ls : List Label} (h : Run step init trace s)
    {trace' : List (Step State Label Outcome)} {s' : State}
    (hr : record step s ls = some (trace', s')) :
    Run step init (trace ++ trace') s' := by
  induction ls generalizing s trace trace' with
  | nil =>
    cases hr
    rwa [List.append_nil]
  | cons l ls ih =>
    simp only [record] at hr
    split at hr
    · next hs =>
      simp only [Option.map_eq_some_iff, Prod.mk.injEq] at hr
      obtain ⟨⟨rest, _⟩, hrest, rfl, rfl⟩ := hr
      rw [List.append_cons]
      exact ih (h.snoc hs) hrest
    · cases hr

theorem run_record {ls : List Label} (hr : record step init ls = some (trace, s)) :
    Run step init trace s :=
  Run.nil.append_record hr

end Runs
