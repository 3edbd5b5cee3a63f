/-
Sorting an array in place through a comparison function.

What a sort does to `n` elements is a `Program`: it asks for comparisons, in an
order that depends on the answers, and moves elements about in between. The
comparisons may have effects (`exec`). If they agree with a function of the
elements, the effects amount to one rearrangement of the array (`exec_eq`).

`Sorter` is a program that sorts by every consistent comparison, and need not
sort by any other; `insertionSort` is one.
-/
import Mathlib.Algebra.Group.End
import Mathlib.Data.List.NodupEquivFin
import Mathlib.Data.List.Sort
import Mathlib.Data.List.FinRange
import FfiBenchmark.Lib.Bytes

namespace Sorting

variable {n : Nat} {α ε τ : Type}

inductive Program (n : Nat) where
  | done
  /-- compare the elements at two places -/
  | compare (i j : Fin n) (next : Int → Program n)
  /-- move to each place `i` the element at `σ i` -/
  | permute (σ : Equiv.Perm (Fin n)) (next : Program n)

/-- A comparison whose answers agree with each other and put the elements in an order. -/
structure Consistent (cmp : α → α → Int) : Prop where
  sign : ∀ a b, cmp a b < 0 ↔ 0 < cmp b a
  trans : ∀ a b c, cmp a b ≤ 0 → cmp b c ≤ 0 → cmp a c ≤ 0

theorem Consistent.total {cmp : α → α → Int} (h : Consistent cmp) (a b : α) :
    cmp a b ≤ 0 ∨ cmp b a ≤ 0 := by
  have := h.sign a b
  omega

namespace Program

/-- Where the element that ends at a place came from. -/
def rearrangement (cmp : α → α → Int) : Program n → (Fin n → α) → Equiv.Perm (Fin n)
  | done, _ => 1
  | compare i j next, xs => (next (cmp (xs i) (xs j))).rearrangement cmp xs
  | permute σ next, xs => σ * next.rearrangement cmp (xs ∘ σ)

def Sorts (p : Program n) : Prop :=
  ∀ {α : Type} {cmp : α → α → Int} (xs : Fin n → α), Consistent cmp →
    ∀ i j, i ≤ j → cmp (xs (p.rearrangement cmp xs i)) (xs (p.rearrangement cmp xs j)) ≤ 0

def exec (compareAt : Fin n → Fin n → EStateM ε τ Int) (move : Equiv.Perm (Fin n) → τ → τ) :
    Program n → EStateM ε τ PUnit
  | done => pure ⟨⟩
  | compare i j next => do
    let c ← compareAt i j
    (next c).exec compareAt move
  | permute σ next => do
    modify (move σ)
    next.exec compareAt move

/-- Comparisons that agree with `cmp` and keep the state: the program moves the elements once. -/
theorem exec_eq {compareAt : Fin n → Fin n → EStateM ε τ Int} (move : Equiv.Perm (Fin n) → τ → τ)
    (cmp : α → α → Int) (view : τ → Fin n → α) (I : τ → Prop)
    (hcompare : ∀ i j t, I t → compareAt i j t = .ok (cmp (view t i) (view t j)) t)
    (hview : ∀ σ t, view (move σ t) = view t ∘ σ) (hI : ∀ σ t, I t → I (move σ t))
    (hone : ∀ t, move 1 t = t) (hmul : ∀ σ ρ t, move ρ (move σ t) = move (σ * ρ) t) (p : Program n)
    {t : τ} (h : I t) :
    p.exec compareAt move t = .ok ⟨⟩ (move (p.rearrangement cmp (view t)) t) := by
  induction p generalizing t with
  | done =>
    rw [rearrangement, hone]
    rfl
  | compare i j next ih =>
    change EStateM.bind (compareAt i j) (fun c => (next c).exec compareAt move) t = _
    rw [EStateM.bind, hcompare i j t h]
    exact ih _ h
  | permute σ next ih =>
    change next.exec compareAt move (move σ t) = _
    rw [ih (hI σ t h), hview, hmul, rearrangement]

/-- What the comparisons and the moves keep, the program keeps. -/
theorem exec_invariant {compareAt : Fin n → Fin n → EStateM ε τ Int}
    {move : Equiv.Perm (Fin n) → τ → τ} (I : τ → Prop)
    (hcompare : ∀ {i j t c t'}, I t → compareAt i j t = .ok c t' → I t')
    (hmove : ∀ σ t, I t → I (move σ t)) (p : Program n) {t t' : τ} (h : I t)
    (hexec : p.exec compareAt move t = .ok ⟨⟩ t') : I t' := by
  induction p generalizing t with
  | done =>
    cases hexec
    exact h
  | compare i j next ih =>
    change EStateM.bind (compareAt i j) (fun c => (next c).exec compareAt move) t = _ at hexec
    rw [EStateM.bind] at hexec
    cases hresult : compareAt i j t with
    | ok c t₁ =>
      rw [hresult] at hexec
      exact ih c (hcompare h hresult) hexec
    | error e t₁ =>
      rw [hresult] at hexec
      cases hexec
  | permute σ next ih => exact ih (hmove σ t h) hexec

/-! Whatever sorts two elements or more, compares some. -/

end Program

/-- A program that sorts by any consistent comparison. -/
structure Sorter (n : Nat) where
  program : Program n
  sorts : program.Sorts

/-! ## Arrays in memory -/

open Bytes

/-- The array of `n` elements at `base`, rearranged. -/
def permuted (base size : Nat) (σ : Equiv.Perm (Fin n)) (m : Memory) : Memory := fun x =>
  if h : base ≤ x ∧ x - base < size * n then
    m (base + σ ⟨(x - base) / size, Nat.div_lt_of_lt_mul h.2⟩ * size + (x - base) % size)
  else m x

variable {base size : Nat} {σ ρ : Equiv.Perm (Fin n)} {m : Memory}

theorem permuted_outside {x : Nat} (h : x < base ∨ base + size * n ≤ x) :
    permuted base size σ m x = m x := by
  rw [permuted, dif_neg (by omega)]

theorem lt_array (i : Fin n) {k : Nat} (hk : k < size) : i * size + k < size * n :=
  calc i * size + k < (i + 1) * size := by rw [Nat.succ_mul]; omega
    _ ≤ n * size := Nat.mul_le_mul_right size i.isLt
    _ = size * n := Nat.mul_comm n size

theorem permuted_element (i : Fin n) {k : Nat} (hk : k < size) :
    permuted base size σ m (base + i * size + k) = m (base + σ i * size + k) := by
  have hx : base + i * size + k - base = k + i * size := by omega
  have hlt := lt_array i hk
  have hdiv : (base + i * size + k - base) / size = i := by
    rw [hx, Nat.add_mul_div_right _ _ (by omega), Nat.div_eq_of_lt hk, Nat.zero_add]
  have hmod : (base + i * size + k - base) % size = k := by
    rw [hx, Nat.add_mul_mod_self_right, Nat.mod_eq_of_lt hk]
  rw [permuted, dif_pos (by omega)]
  simp only [hdiv, hmod, Fin.eta]

theorem load_permuted (i : Fin n) :
    load (permuted base size σ m) (base + i * size) size = load m (base + σ i * size) size :=
  List.map_congr_left fun _ hk => permuted_element i (List.mem_range.mp hk)

/-- A byte of the array is one of an element. -/
theorem exists_element {x : Nat} (h : base ≤ x ∧ x - base < size * n) :
    ∃ (i : Fin n) (k : Nat), k < size ∧ x = base + i * size + k := by
  have hpos : 0 < size := by
    rcases Nat.eq_zero_or_pos size with rfl | hpos
    · omega
    · exact hpos
  refine ⟨⟨(x - base) / size, Nat.div_lt_of_lt_mul h.2⟩, (x - base) % size, Nat.mod_lt _ hpos, ?_⟩
  have := Nat.div_add_mod' (x - base) size
  simp only
  omega

theorem memory_ext {m' : Memory} (base size n : Nat)
    (helement : ∀ (i : Fin n) (k : Nat), k < size →
      m (base + i * size + k) = m' (base + i * size + k))
    (hout : ∀ x, x < base ∨ base + size * n ≤ x → m x = m' x) : m = m' := by
  funext x
  by_cases h : base ≤ x ∧ x - base < size * n
  · obtain ⟨i, k, hk, rfl⟩ := exists_element h
    exact helement i k hk
  · exact hout x (by omega)

theorem permuted_one : permuted base size (1 : Equiv.Perm (Fin n)) m = m :=
  memory_ext base size n (fun i _ hk => permuted_element i hk) fun _ h => permuted_outside h

theorem permuted_permuted :
    permuted base size ρ (permuted base size σ m) = permuted base size (σ * ρ) m := by
  refine memory_ext base size n (fun i k hk => ?_) fun x h => ?_
  · rw [permuted_element i hk, permuted_element (ρ i) hk, permuted_element i hk,
      Equiv.Perm.mul_apply]
  · rw [permuted_outside h, permuted_outside h, permuted_outside h]

/-! ## A sorter -/

namespace Program

/-- Put `i` in its place among sorted ones. -/
def insert (i : Fin n) : List (Fin n) → (List (Fin n) → Program n) → Program n
  | [], next => next [i]
  | j :: js, next =>
    compare i j fun c => if c ≤ 0 then next (i :: j :: js) else insert i js fun js => next (j :: js)

def insertAll : List (Fin n) → (List (Fin n) → Program n) → Program n
  | [], next => next []
  | i :: is, next => insertAll is fun js => insert i js next

/-- Put the elements in the order of a list of their places. -/
def arrange (is : List (Fin n)) : Program n :=
  if h : is.length = n ∧ is.Nodup ∧ ∀ i, i ∈ is then
    permute ((finCongr h.1.symm).trans (h.2.1.getEquivOfForallMemList is h.2.2)) done
  else done

variable (cmp : α → α → Int) (xs : Fin n → α)

/-- The element at `i` may stand before the one at `j`. -/
abbrev Before (i j : Fin n) : Prop := cmp (xs i) (xs j) ≤ 0

theorem rearrangement_insert (i : Fin n) (js : List (Fin n)) (next : List (Fin n) → Program n) :
    (insert i js next).rearrangement cmp xs =
      (next (js.orderedInsert (Before cmp xs) i)).rearrangement cmp xs := by
  induction js generalizing next with
  | nil => rfl
  | cons j js ih =>
    rw [insert, rearrangement, List.orderedInsert_cons]
    split
    · rfl
    · exact ih _

theorem rearrangement_insertAll (is : List (Fin n)) (next : List (Fin n) → Program n) :
    (insertAll is next).rearrangement cmp xs =
      (next (is.insertionSort (Before cmp xs))).rearrangement cmp xs := by
  induction is generalizing next with
  | nil => rfl
  | cons i is ih => rw [insertAll, ih, rearrangement_insert, List.insertionSort_cons]

theorem rearrangement_arrange {is : List (Fin n)} (h : is.length = n ∧ is.Nodup ∧ ∀ i, i ∈ is)
    (i : Fin n) :
    (arrange is).rearrangement cmp xs i = is[i] := by
  rw [arrange, dif_pos h, rearrangement, rearrangement, mul_one]
  rfl

theorem insertionSort_places : ((List.finRange n).insertionSort (Before cmp xs)).length = n ∧
    ((List.finRange n).insertionSort (Before cmp xs)).Nodup ∧
      ∀ i, i ∈ (List.finRange n).insertionSort (Before cmp xs) := by
  have hperm := List.perm_insertionSort (Before cmp xs) (List.finRange n)
  refine ⟨?_, ?_, fun i => ?_⟩
  · rw [hperm.length_eq, List.length_finRange]
  · exact hperm.nodup_iff.mpr (List.nodup_finRange n)
  · exact hperm.mem_iff.mpr (List.mem_finRange i)

theorem insertAll_sorts : (insertAll (List.finRange n) arrange).Sorts := by
  intro α cmp xs hcmp i j hij
  have hplaces := insertionSort_places cmp xs
  have : Std.Total (Before cmp xs) := ⟨fun i j => hcmp.total (xs i) (xs j)⟩
  have : IsTrans (Fin n) (Before cmp xs) := ⟨fun i j k => hcmp.trans (xs i) (xs j) (xs k)⟩
  have hsorted := List.pairwise_insertionSort (Before cmp xs) (List.finRange n)
  rw [rearrangement_insertAll, rearrangement_arrange cmp xs hplaces,
    rearrangement_arrange cmp xs hplaces]
  rcases Nat.lt_or_eq_of_le hij with hlt | heq
  · exact List.pairwise_iff_getElem.mp hsorted i j _ _ hlt
  · obtain rfl := Fin.ext heq
    exact (hcmp.total _ _).elim id id

end Program

def insertionSort (n : Nat) : Sorter n := ⟨_, Program.insertAll_sorts⟩

end Sorting
