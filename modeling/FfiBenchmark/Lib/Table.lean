/-
A list as one of its members is written, or one is added.

Then two counts: of the entries of a finite map that a test holds of, as entries
come and go; and of the members of a list, as the test changes.
-/
import Mathlib.Data.List.AList
import Mathlib.Data.List.Nodup

namespace Table

variable {α β : Type}

/-! ## Writing a member -/

theorem set_same {l : List α} {i : Nat} {x : α} (hx : l[i]? = some x) : l.set i x = l := by
  obtain ⟨hlt, rfl⟩ := List.getElem?_eq_some_iff.mp hx
  exact List.set_getElem_self hlt

theorem set_cases {l : List α} {i j : Nat} {x y : α} (h : (l.set i x)[j]? = some y) :
    j = i ∧ y = x ∨ j ≠ i ∧ l[j]? = some y := by
  by_cases heq : j = i
  · subst heq
    have hlt : j < l.length := by simpa using (List.getElem?_eq_some_iff.mp h).1
    rw [List.getElem?_set_self hlt, Option.some_inj] at h
    exact .inl ⟨rfl, h.symm⟩
  · rw [List.getElem?_set_ne (Ne.symm heq)] at h
    exact .inr ⟨heq, h⟩

theorem concat_cases {l : List α} {i : Nat} {x y : α} (h : (l ++ [x])[i]? = some y) :
    l[i]? = some y ∨ i = l.length ∧ y = x := by
  rcases Nat.lt_or_ge i l.length with hlt | hge
  · rw [List.getElem?_append_left hlt] at h
    exact .inl h
  · rw [List.getElem?_append_right hge, List.getElem?_singleton] at h
    split at h
    · exact .inr ⟨by omega, (Option.some.inj h).symm⟩
    · cases h

/-- What `f` says of the members stays as it was. -/
theorem map_set {f : α → β} {l : List α} {i : Nat} {x x' : α} (hx : l[i]? = some x)
    (hf : f x' = f x) (j : Nat) :
    ((l.set i x')[j]?).map f = (l[j]?).map f := by
  obtain ⟨hlt, -⟩ := List.getElem?_eq_some_iff.mp hx
  by_cases heq : i = j
  · rw [← heq, List.getElem?_set_self hlt, hx, Option.map_some, Option.map_some, hf]
  · rw [List.getElem?_set_ne heq]

/-- A relation that holds inside of each class, and between them. -/
theorem pairwise_of_filter [DecidableEq β] {R : α → α → Prop} {f : α → β} {l : List α}
    (hsame : ∀ b, (l.filter (f · = b)).Pairwise R)
    (hother : ∀ a ∈ l, ∀ a' ∈ l, f a ≠ f a' → R a a') :
    l.Pairwise R := by
  induction l with
  | nil => exact .nil
  | cons a l ih =>
    refine List.pairwise_cons.mpr ⟨fun a' ha' => ?_, ih (fun b => ?_) fun a₁ h₁ a₂ h₂ =>
      hother a₁ (List.mem_cons_of_mem _ h₁) a₂ (List.mem_cons_of_mem _ h₂)⟩
    · by_cases heq : f a' = f a
      · have hclass := hsame (f a)
        rw [List.filter_cons_of_pos (by simp), List.pairwise_cons] at hclass
        exact hclass.1 a' (List.mem_filter.mpr ⟨ha', decide_eq_true heq⟩)
      · exact hother a (by simp) a' (List.mem_cons_of_mem _ ha') (Ne.symm heq)
    · exact (hsame b).sublist ((List.sublist_cons_self a l).filter _)

/-! ## Counting -/

/-- The number of entries that `f` holds of. -/
def count (f : α → β → Bool) (m : AList fun _ : α => β) : Nat := m.entries.countP fun e => f e.1 e.2

/-- What one value, if there is one, adds to the count. -/
def one (f : α → β → Bool) (a : α) (b : Option β) : Nat := b.elim 0 fun b => if f a b then 1 else 0

@[simp] theorem one_none (f : α → β → Bool) (a : α) : one f a none = 0 := rfl
@[simp] theorem one_some (f : α → β → Bool) (a : α) (b : β) :
    one f a (some b) = if f a b then 1 else 0 := rfl

variable [DecidableEq α]

theorem count_eq_zero {f : α → β → Bool} {m : AList fun _ : α => β}
    (h : ∀ a b, m.lookup a = some b → f a b = false) : count f m = 0 := by
  rw [count, List.countP_eq_zero]
  intro e he
  have := h e.1 e.2 (AList.mem_lookup_iff.mpr he)
  simp [this]

theorem count_erase (f : α → β → Bool) (m : AList fun _ : α => β) (a : α) :
    count f (m.erase a) + one f a (m.lookup a) = count f m := by
  by_cases ha : a ∈ m.entries.keys
  · obtain ⟨b, l₁, l₂, hnot, heq, hkerase⟩ := List.exists_of_kerase ha
    have hlookup : m.lookup a = some b := by
      rw [← Option.mem_def, AList.mem_lookup_iff, heq]
      simp
    have hcount : count f m = l₁.countP (fun e => f e.1 e.2) +
        (l₂.countP (fun e => f e.1 e.2) + if f a b then 1 else 0) := by
      rw [count, heq, List.countP_append, List.countP_cons]
    have herase : count f (m.erase a) = l₁.countP (fun e => f e.1 e.2) +
        l₂.countP (fun e => f e.1 e.2) := by
      rw [← List.countP_append, ← hkerase]
      rfl
    rw [hlookup, one_some, hcount, herase]
    omega
  · have hlookup : m.lookup a = none := AList.lookup_eq_none.mpr ha
    have herase : (m.erase a).entries = m.entries := List.kerase_of_notMem_keys ha
    rw [hlookup, one_none, count, herase]
    rfl

theorem count_insert (f : α → β → Bool) (m : AList fun _ : α => β) (a : α) (b : β) :
    count f (m.insert a b) + one f a (m.lookup a) = count f m + one f a (some b) := by
  have hinsert : count f (m.insert a b) = count f (m.erase a) + one f a (some b) := by
    rw [count, AList.entries_insert, List.countP_cons]
    rfl
  have herase := count_erase f m a
  omega

/-- A test that comes to fail for one member. -/
theorem countP_flip {l : List α} {p q : α → Bool} {a : α} (hnodup : l.Nodup) (hmem : a ∈ l)
    (hp : p a = true) (hq : q a = false) (hother : ∀ b ∈ l, b ≠ a → p b = q b) :
    l.countP p = l.countP q + 1 := by
  have hperm : l.Perm (a :: l.erase a) := List.perm_cons_erase hmem
  have hrest : (l.erase a).countP p = (l.erase a).countP q := by
    refine List.countP_congr fun b hb => ?_
    have hb := (hnodup.mem_erase_iff).mp hb
    rw [hother b hb.2 hb.1]
  rw [hperm.countP_eq, hperm.countP_eq, List.countP_cons_of_pos hp,
    List.countP_cons_of_neg (by simp [hq]), hrest]

end Table
