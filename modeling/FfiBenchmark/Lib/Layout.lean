/-
Records by the rule of C: a member stands at the next offset that is a multiple
of its alignment, and the size of the record is rounded up to the largest
alignment of a member.

The members do not overlap and lie within the size (`blocks_bounds`,
`blocks_ordered`). So a record that is stored member by member is loaded back
member by member (`load_blocks`), and nothing outside of it is written.
-/
import FfiBenchmark.Lib.Bytes
import FfiBenchmark.Lib.Rounding

namespace Layout

open Bytes Rounding

/-- A member as it is declared. -/
structure Member (Name : Type) where
  name : Name
  size : Nat
  align : Nat
  align_pos : 0 < align

/-- A member with what it holds. -/
structure Slot (Name : Type) extends Member Name where
  bytes : List UInt8
  length_bytes : bytes.length = size

variable {Name : Type}

/-- The end of the last member. -/
def extent (start : Nat) : List (Member Name) → Nat
  | [] => start
  | m :: ms => extent (roundUp m.align start + m.size) ms

def alignment : List (Member Name) → Nat
  | [] => 1
  | m :: ms => max m.align (alignment ms)

def size (ms : List (Member Name)) : Nat := roundUp (alignment ms) (extent 0 ms)

/-- Where each member stands, from `start` on. -/
def offsets (start : Nat) : List (Member Name) → List Nat
  | [] => []
  | m :: ms => roundUp m.align start :: offsets (roundUp m.align start + m.size) ms

def members (fs : List (Slot Name)) : List (Member Name) := fs.map Slot.toMember

/-- What a record at the address `base` holds, from `start` on: addresses, with
the bytes that are there. -/
def blocks (base start : Nat) (fs : List (Slot Name)) : List (Nat × List UInt8) :=
  List.zipWith (fun offset f => (base + offset, f.bytes)) (offsets start (members fs)) fs

theorem blocks_cons (base start : Nat) (f : Slot Name) (fs : List (Slot Name)) :
    blocks base start (f :: fs) =
      (base + roundUp f.align start, f.bytes) :: blocks base (roundUp f.align start + f.size) fs :=
  rfl

theorem mem_blocks {base start k offset : Nat} {fs : List (Slot Name)} {f : Slot Name}
    (ho : (offsets start (members fs))[k]? = some offset) (hf : fs[k]? = some f) :
    (base + offset, f.bytes) ∈ blocks base start fs := by
  apply List.mem_of_getElem? (i := k)
  rw [blocks, List.getElem?_zipWith, ho, hf]

theorem le_extent (start : Nat) (ms : List (Member Name)) : start ≤ extent start ms := by
  induction ms generalizing start with
  | nil => exact Nat.le_refl _
  | cons m ms ih =>
    have hround := le_roundUp m.align_pos start
    have hrest := ih (roundUp m.align start + m.size)
    rw [extent]
    omega

theorem alignment_pos (ms : List (Member Name)) : 0 < alignment ms := by
  induction ms with
  | nil => exact Nat.one_pos
  | cons m ms ih => exact Nat.lt_of_lt_of_le ih (Nat.le_max_right _ _)

theorem extent_le_size (ms : List (Member Name)) : extent 0 ms ≤ size ms :=
  le_roundUp (alignment_pos ms) _

theorem blocks_bounds {base start : Nat} {fs : List (Slot Name)} :
    ∀ b ∈ blocks base start fs, base + start ≤ b.1 ∧
      b.1 + b.2.length ≤ base + extent start (members fs) := by
  induction fs generalizing start with
  | nil => simp [blocks]
  | cons f fs ih =>
    have hround := le_roundUp f.align_pos start
    have hextent := le_extent (roundUp f.align start + f.size) (members fs)
    intro b hb
    rw [blocks_cons, List.mem_cons] at hb
    rw [members, List.map_cons, extent]
    rcases hb with rfl | hb
    · rw [f.length_bytes]
      exact ⟨by omega, by rw [members] at hextent; omega⟩
    · have := ih b hb
      rw [members] at this
      omega

/-- Each member ends where the next begins, or before. -/
theorem blocks_ordered (base start : Nat) (fs : List (Slot Name)) :
    (blocks base start fs).Pairwise fun b b' => b.1 + b.2.length ≤ b'.1 := by
  induction fs generalizing start with
  | nil => exact .nil
  | cons f fs ih =>
    rw [blocks_cons]
    refine .cons (fun b hb => ?_) (ih _)
    have := (blocks_bounds b hb).1
    rw [f.length_bytes]
    omega

variable {m : Memory} {base : Nat} {fs : List (Slot Name)}

/-- **Each member is loaded back.** -/
theorem load_blocks :
    ∀ b ∈ blocks base 0 fs, load (storeAll m (blocks base 0 fs)) b.1 b.2.length = b.2 :=
  load_storeAll (blocks_ordered base 0 fs)

theorem blocks_outside {x : Nat} (h : x < base ∨ base + size (members fs) ≤ x) :
    storeAll m (blocks base 0 fs) x = m x := by
  refine storeAll_outside fun b hb => ?_
  have hbounds := blocks_bounds b hb
  have hsize := extent_le_size (members fs)
  omega

end Layout
