/-
What a last-in first-out region takes up, against what was asked of it.

An account has an entry for each open frame, the innermost first, and one for
what was taken outside of all frames. Taking adds to the first entry, a new
frame puts one in front, and a closed one takes it away. `Covers` keeps every
level of the region, the top and the saved marks, at or below what the entries
from its own on add up to.
-/
import Mathlib.Algebra.BigOperators.Group.List.Basic
import Mathlib.Algebra.Order.Monoid.Defs

namespace Budget

variable {α : Type*} [AddCommMonoid α] [PartialOrder α]

/-- The levels of a region, the top first, and its account. -/
inductive Covers : List α → List α → Prop where
  | base {level entry : α} (h : level ≤ entry) : Covers [level] [entry]
  | frame {level entry : α} {levels account : List α} (h : level ≤ entry + account.sum)
      (below : Covers levels account) :
      Covers (level :: levels) (entry :: account)

variable {level level' taken : α} {levels account : List α}

theorem covers_init : Covers [(0 : α)] [0] := .base le_rfl

/-- The top is within the account. -/
theorem Covers.top_le (h : Covers (level :: levels) account) : level ≤ account.sum := by
  cases h with
  | base h => simpa using h
  | frame h below => simpa using h

/-- A new frame begins at the top. -/
theorem Covers.push (h : Covers (level :: levels) account) :
    Covers (level :: level :: levels) (0 :: account) := by
  refine .frame ?_ h
  rw [zero_add]
  exact h.top_le

/-- The top moves up by no more than what is taken. -/
theorem Covers.take [IsOrderedAddMonoid α] (h : Covers (level :: levels) account)
    (hle : level' ≤ level + taken) :
    Covers (level' :: levels) (account.modifyHead (· + taken)) := by
  cases h with
  | base h => exact .base (hle.trans (add_le_add_left h taken))
  | @frame _ entry _ account h below =>
    refine .frame (hle.trans ?_) below
    calc level + taken ≤ (entry + account.sum) + taken := add_le_add_left h taken
      _ = (entry + taken) + account.sum := add_right_comm ..

/-- The top returns to the last mark. -/
theorem Covers.pop (h : Covers (level :: level' :: levels) account) :
    Covers (level' :: levels) account.tail := by
  cases h with
  | frame h below => exact below

end Budget
