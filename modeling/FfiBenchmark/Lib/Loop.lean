/-
Loops with early exits in a state and exception monad, and rules of pre- and
postconditions for them.

A `body` is one round of a loop, its condition included. `loop` repeats it; a
run that has used up its fuel is still `running`, and the rule `loop_spec`
excludes that by a variant, so it proves termination and the postconditions
together. A loop over a list needs no fuel (`forM_spec`).
-/
import Mathlib.Order.Basic

namespace Loop

variable {ε τ σ ρ α β : Type}

/-- What a program returns or throws. -/
def outcome : EStateM.Result ε τ α → Except ε α
  | .ok a _ => .ok a
  | .error e _ => .error e

@[simp] theorem outcome_ok (a : α) (t : τ) : outcome (.ok a t : EStateM.Result ε τ α) = .ok a := rfl
@[simp] theorem outcome_error (e : ε) (t : τ) :
    outcome (.error e t : EStateM.Result ε τ α) = .error e := rfl

/-! ## Postconditions -/

/-- A result that meets `Q` where it is a value and `E` where it is an exception. -/
inductive Ensures (Q : α → τ → Prop) (E : ε → τ → Prop) : EStateM.Result ε τ α → Prop where
  | ok {a : α} {t : τ} (h : Q a t) : Ensures Q E (.ok a t)
  | error {e : ε} {t : τ} (h : E e t) : Ensures Q E (.error e t)

theorem Ensures.mono {Q Q' : α → τ → Prop} {E E' : ε → τ → Prop} {r : EStateM.Result ε τ α}
    (h : Ensures Q E r) (hQ : ∀ a t, Q a t → Q' a t) (hE : ∀ e t, E e t → E' e t) :
    Ensures Q' E' r := by
  cases h with
  | ok h => exact .ok (hQ _ _ h)
  | error h => exact .error (hE _ _ h)

theorem Ensures.bind {P : α → τ → Prop} {Q : β → τ → Prop} {E : ε → τ → Prop} {x : EStateM ε τ α}
    {f : α → EStateM ε τ β} {t : τ} (hx : Ensures P E (x t))
    (hf : ∀ a t, P a t → Ensures Q E (f a t)) :
    Ensures Q E ((x >>= f) t) := by
  change Ensures Q E (EStateM.bind x f t)
  unfold EStateM.bind
  cases h : x t with
  | ok a t' =>
    rw [h] at hx
    cases hx with
    | ok hP => exact hf a t' hP
  | error e t' =>
    rw [h] at hx
    cases hx with
    | error hE => exact .error hE

/-! ## Loops -/

/-- How one round of a loop ends: with another round, out of the loop, or out
of the method. -/
inductive Turn (σ β : Type) where
  | next (s : σ)
  | leave (s : σ)
  | ret (b : β)

/-- How a loop ends. -/
inductive Exit (σ β : Type) where
  | left (s : σ)
  | returned (b : β)
  | running

def loop (body : σ → EStateM ε τ (Turn σ β)) : Nat → σ → EStateM ε τ (Exit σ β)
  | 0, _ => pure .running
  | fuel + 1, s => do
    match ← body s with
    | .next s => loop body fuel s
    | .leave s => pure (.left s)
    | .ret b => pure (.returned b)

/-- What follows a loop runs if the loop is left. -/
def Exit.andThen (x : Exit σ β) (f : σ → EStateM ε τ (Exit ρ β)) : EStateM ε τ (Exit ρ β) :=
  match x with
  | .left s => f s
  | .returned b => pure (.returned b)
  | .running => pure .running

def Turn.Post (I L : σ → τ → Prop) (R : β → τ → Prop) : Turn σ β → τ → Prop
  | .next s, t => I s t
  | .leave s, t => L s t
  | .ret b, t => R b t

def Exit.Post (L : σ → τ → Prop) (R : β → τ → Prop) : Exit σ β → τ → Prop
  | .left s, t => L s t
  | .returned b, t => R b t
  | .running, _ => False

/-- **The loop rule.** Every round keeps the invariant `I` and decreases the
variant `μ`, or ends the loop in its postconditions. -/
theorem loop_spec {body : σ → EStateM ε τ (Turn σ β)} (I : σ → τ → Prop) (μ : σ → Nat)
    {L : σ → τ → Prop} {R : β → τ → Prop} {E : ε → τ → Prop}
    (hbody : ∀ s t, I s t →
      Ensures (Turn.Post (fun s' t' => I s' t' ∧ μ s' < μ s) L R) E (body s t))
    {fuel : Nat} {s : σ} {t : τ} (hfuel : μ s < fuel) (h : I s t) :
    Ensures (Exit.Post L R) E (loop body fuel s t) := by
  induction fuel generalizing s t with
  | zero => omega
  | succ fuel ih =>
    refine Ensures.bind (hbody s t h) ?_
    intro turn t' hturn
    cases turn with
    | next s' => exact ih (by have := hturn.2; omega) hturn.1
    | leave s' => exact .ok hturn
    | ret b => exact .ok hturn

theorem Exit.andThen_spec {L : σ → τ → Prop} {L' : ρ → τ → Prop} {R : β → τ → Prop}
    {E : ε → τ → Prop} {f : σ → EStateM ε τ (Exit ρ β)} {x : Exit σ β} {t : τ}
    (hx : Exit.Post L R x t) (hf : ∀ s t, L s t → Ensures (Exit.Post L' R) E (f s t)) :
    Ensures (Exit.Post L' R) E (x.andThen f t) := by
  cases x with
  | left s => exact hf s t hx
  | returned b => exact .ok hx
  | running => exact hx.elim

/-! ## Lists -/

theorem forM_spec {body : α → EStateM ε τ PUnit} (I : τ → Prop) {E : ε → τ → Prop} {l : List α}
    (hbody : ∀ a ∈ l, ∀ t, I t → Ensures (fun _ t' => I t') E (body a t)) {t : τ} (h : I t) :
    Ensures (fun _ t' => I t') E (l.forM body t) := by
  induction l generalizing t with
  | nil => exact .ok h
  | cons a l ih =>
    exact Ensures.bind (hbody a List.mem_cons_self t h)
      fun _ _ h' => ih (fun a ha => hbody a (List.mem_cons_of_mem _ ha)) h'

/-- Runs that each end as expected, one after the other, from states with `I`:
what follows starts from such a state, if none of them throws. -/
theorem outcome_forM_append {run : α → EStateM ε τ Unit} {expected : α → Except ε Unit}
    (I : τ → Prop) {l : List α}
    (hrun : ∀ a ∈ l, ∀ t, I t →
      Ensures (fun _ t' => I t' ∧ expected a = .ok ()) (fun e _ => expected a = .error e) (run a t))
    (l' : List α) {t : τ} (h : I t) :
    ∃ t', I t' ∧
      outcome ((l ++ l').forM run t) = (l.forM expected >>= fun _ => outcome (l'.forM run t')) := by
  induction l generalizing t with
  | nil => exact ⟨t, h, rfl⟩
  | cons a l ih =>
    have ha := hrun a List.mem_cons_self t h
    change ∃ t', I t' ∧ outcome (EStateM.bind (run a) (fun _ => (l ++ l').forM run) t) =
      Except.bind (Except.bind (expected a) fun _ => l.forM expected)
      fun _ => outcome (l'.forM run t')
    rw [EStateM.bind]
    cases hresult : run a t with
    | ok u t' =>
      rw [hresult] at ha
      cases ha with
      | ok hok =>
        rw [hok.2]
        exact ih (fun a ha => hrun a (List.mem_cons_of_mem _ ha)) hok.1
    | error e t' =>
      rw [hresult] at ha
      cases ha with
      | error he =>
        rw [he]
        exact ⟨t, h, rfl⟩

theorem outcome_forM {run : α → EStateM ε τ Unit} {expected : α → Except ε Unit} (I : τ → Prop)
    {l : List α}
    (hrun : ∀ a ∈ l, ∀ t, I t →
      Ensures (fun _ t' => I t' ∧ expected a = .ok ()) (fun e _ => expected a = .error e) (run a t))
    {t : τ} (h : I t) :
    outcome (l.forM run t) = l.forM expected := by
  obtain ⟨t', -, hrest⟩ := outcome_forM_append I hrun [] h
  rw [List.append_nil] at hrest
  rw [hrest]
  cases l.forM expected <;> rfl

end Loop
