/-
A last-in first-out region: blocks are handed out upwards from `top`, `push`
saves `top`, and `pop` returns to the last saved mark and with it gives up
every block handed out since.

`Region bot cap` carries what such a region keeps as fields, over any
preorder of addresses: marks and top are sorted and lie in `[bot, cap]`, a
live block ends at or below the level of its depth, and a block lies above
every older live one. So no two live blocks overlap (`Region.disjoint`),
whatever is done to the region.
-/
import Mathlib.Data.List.Pairwise
import Mathlib.Order.CompletePartialOrder
import Mathlib.Order.Interval.Set.Disjoint

namespace Lifo

/-- A block handed out: `[lo, hi)`, and the number of marks saved then. -/
structure Block (α : Type*) where
  lo : α
  hi : α
  depth : Nat

/-- A region over `[bot, cap]`: the marks oldest first, the live blocks
newest first. Level `d` is mark `d`, or `top` past the last mark. -/
structure Region (α : Type*) [Preorder α] (bot cap : α) where
  top : α
  marks : List α
  live : List (Block α)
  sorted : (bot :: (marks ++ [top])).Pairwise (· ≤ ·)
  top_le : top ≤ cap
  fits : ∀ b ∈ live, bot ≤ b.lo ∧ b.lo ≤ b.hi ∧ ∃ m, (marks ++ [top])[b.depth]? = some m ∧ b.hi ≤ m
  ordered : live.Pairwise fun newer older => older.hi ≤ newer.lo

namespace Region

variable {α : Type*} [Preorder α] {bot cap : α}

/-- Nothing saved, nothing handed out. -/
def init (h : bot ≤ cap) : Region α bot cap where
  top := bot
  marks := []
  live := []
  sorted := by simp
  top_le := h
  fits := by simp
  ordered := .nil

theorem bot_le_top (r : Region α bot cap) : bot ≤ r.top :=
  List.rel_of_pairwise_cons r.sorted (by simp)

theorem levels_sorted (r : Region α bot cap) : (r.marks ++ [r.top]).Pairwise (· ≤ ·) :=
  r.sorted.of_cons

/-- Every level is at or below the top. -/
theorem le_top (r : Region α bot cap) {d : Nat} {m : α} (h : (r.marks ++ [r.top])[d]? = some m) :
    m ≤ r.top := by
  have hm := List.mem_of_getElem? h
  rw [List.mem_append, List.mem_singleton] at hm
  rcases hm with hm | rfl
  · exact (List.pairwise_append.mp r.levels_sorted).2.2 m hm r.top (by simp)
  · exact le_refl _

theorem hi_le_top (r : Region α bot cap) {b : Block α} (hb : b ∈ r.live) : b.hi ≤ r.top := by
  obtain ⟨-, -, m, hm, hle⟩ := r.fits b hb
  exact hle.trans (r.le_top hm)

/-- Every live block lies in `[bot, cap]`. -/
theorem within (r : Region α bot cap) {b : Block α} (hb : b ∈ r.live) :
    bot ≤ b.lo ∧ b.lo ≤ b.hi ∧ b.hi ≤ cap := by
  obtain ⟨hlo, hlh, -⟩ := r.fits b hb
  exact ⟨hlo, hlh, (r.hi_le_top hb).trans r.top_le⟩

theorem depth_le (r : Region α bot cap) {b : Block α} (hb : b ∈ r.live) :
    b.depth ≤ r.marks.length := by
  obtain ⟨-, -, m, hm, -⟩ := r.fits b hb
  have := (List.getElem?_eq_some_iff.mp hm).1
  simp only [List.length_append, List.length_singleton] at this
  omega

/-- **No two live blocks overlap.** -/
theorem disjoint (r : Region α bot cap) :
    r.live.Pairwise fun b c => Disjoint (Set.Ico b.lo b.hi) (Set.Ico c.lo c.hi) := by
  refine r.ordered.imp fun {newer older} h => ?_
  rw [Set.disjoint_left]
  intro x hx hy
  exact absurd (hy.2.trans_le (h.trans hx.1)) (lt_irrefl x)

/-- Save the top. -/
def push (r : Region α bot cap) : Region α bot cap where
  top := r.top
  marks := r.marks ++ [r.top]
  live := r.live
  sorted := by
    have h := r.sorted
    rw [← List.cons_append, List.pairwise_append] at h ⊢
    refine ⟨r.sorted, by simp, fun a ha b hb => ?_⟩
    obtain rfl := List.mem_singleton.mp hb
    rw [← List.cons_append, List.mem_append, List.mem_singleton] at ha
    rcases ha with ha | rfl
    · exact h.2.2 a ha r.top (by simp)
    · exact le_refl _
  top_le := r.top_le
  fits b hb := by
    obtain ⟨hlo, hlh, m, hm, hle⟩ := r.fits b hb
    refine ⟨hlo, hlh, m, ?_, hle⟩
    rw [List.getElem?_append_left (List.getElem?_eq_some_iff.mp hm).1]
    exact hm
  ordered := r.ordered

/-- Return to the last mark; the blocks handed out since are given up. -/
def pop (r : Region α bot cap) (ms : List α) (m : α) (h : r.marks = ms ++ [m]) :
    Region α bot cap where
  top := m
  marks := ms
  live := r.live.filter (·.depth ≤ ms.length)
  sorted := by
    have hs := r.sorted
    rw [h, ← List.cons_append, List.pairwise_append] at hs
    exact hs.1
  top_le := by
    refine (r.le_top (d := ms.length) ?_).trans r.top_le
    simp [h]
  fits b hb := by
    obtain ⟨hb, hd⟩ := List.mem_filter.mp hb
    obtain ⟨hlo, hlh, m', hm', hle⟩ := r.fits b hb
    refine ⟨hlo, hlh, m', ?_, hle⟩
    rwa [h, List.getElem?_append_left (by simpa [Nat.lt_succ_iff] using hd)] at hm'
  ordered := r.ordered.filter _

/-- Hand out `[lo, hi)`, at or above the top. -/
def alloc (r : Region α bot cap) (lo hi : α) (hlo : r.top ≤ lo) (hlh : lo ≤ hi) (hhi : hi ≤ cap) :
    Region α bot cap where
  top := hi
  marks := r.marks
  live := ⟨lo, hi, r.marks.length⟩ :: r.live
  sorted := by
    have h := r.sorted
    rw [← List.cons_append, List.pairwise_append] at h ⊢
    refine ⟨h.1, by simp, fun a ha b hb => ?_⟩
    obtain rfl := List.mem_singleton.mp hb
    exact (h.2.2 a ha r.top (by simp)).trans (hlo.trans hlh)
  top_le := hhi
  fits b hb := by
    rcases List.mem_cons.mp hb with rfl | hb
    · exact ⟨r.bot_le_top.trans hlo, hlh, hi, by simp, le_refl _⟩
    · obtain ⟨hl, hh, m, hm, hle⟩ := r.fits b hb
      refine ⟨hl, hh, ?_⟩
      rcases Nat.lt_or_ge b.depth r.marks.length with hd | hd
      · rw [List.getElem?_append_left hd] at hm
        exact ⟨m, by rwa [List.getElem?_append_left hd], hle⟩
      · have hd : b.depth = r.marks.length := Nat.le_antisymm (r.depth_le hb) hd
        exact ⟨hi, by simp [hd], (r.hi_le_top hb).trans (hlo.trans hlh)⟩
  ordered := List.pairwise_cons.mpr ⟨fun _ hb => (r.hi_le_top hb).trans hlo, r.ordered⟩

end Region

end Lifo
