/-
`strlen`: where it stops, what it reads on the way, and how long it takes.

Each of the three loops is proved with the loop rule. What is carried through
them and through the `break` is `Seen`: there is no zero byte before `offset`,
and `ascii` is false only if a negative byte comes before the terminator, which
at the `break` is still ahead of `offset`. The log bounds what was read and
computed (`Event.Within`), and counts the rounds.
-/
import FfiBenchmark.GetString

namespace FfiBenchmark.GetString

open Loop

theorem signed_eq_zero {b : UInt8} : signed b = 0 ↔ b = 0 := by
  unfold signed
  rw [← BitVec.toInt_zero (w := 8), BitVec.toInt_inj]
  constructor
  · intro h
    exact UInt8.toBitVec_inj.mp h
  · intro h
    rw [h]
    rfl

theorem lt_of_signed_pos {b : UInt8} (h : 0 < signed b) : b < 128 := by
  unfold signed at h
  rw [BitVec.toInt_eq_toNat_cond] at h
  have hb := b.toBitVec.isLt
  change b.toNat < 128
  change b.toNat < 2 ^ 8 at hb
  split at h
  · next hlt =>
    change 2 * b.toNat < 2 ^ 8 at hlt
    omega
  · next hge =>
    change 0 < (b.toNat : Int) - 2 ^ 8 at h
    omega

/-! ## Vectors -/

/-- The lanes that are loaded from `offset`. -/
def lanes (seg : Segment) (offset : Nat) : List Int :=
  (List.range speciesLength).map fun k => signed (seg.bytes (offset + k))

/-- The first lane that passes the test. -/
theorem firstTrue_compare (seg : Segment) (offset : Nat) (op : Comparison) (e : Int) :
    ∃ idx, firstTrue (compare (lanes seg offset) op e) = idx ∧
      (idx < speciesLength → op.test (signed (seg.bytes (offset + idx))) e = true) ∧
      ∀ k < idx, op.test (signed (seg.bytes (offset + k))) e = false := by
  have hlen : (compare (lanes seg offset) op e).length = speciesLength := by simp [compare, lanes]
  have hle : firstTrue (compare (lanes seg offset) op e) ≤ speciesLength := by
    rw [← hlen]
    exact List.findIdx_le_length
  refine ⟨_, rfl, ?_, ?_⟩
  · intro hlt
    have hset : id ((compare (lanes seg offset) op e).get
        ⟨firstTrue (compare (lanes seg offset) op e), hlen ▸ hlt⟩) = true :=
      List.findIdx_getElem
    simpa [compare, lanes, firstTrue] using hset
  · intro k hk
    have hunset := List.not_of_lt_findIdx hk
    simpa [compare, lanes] using hunset

theorem firstTrue_le (seg : Segment) (offset : Nat) :
    ∃ idx, firstTrue (compare (lanes seg offset) .le 0) = idx ∧
      (idx < speciesLength → signed (seg.bytes (offset + idx)) ≤ 0) ∧
        ∀ k < idx, 0 < signed (seg.bytes (offset + k)) := by
  obtain ⟨idx, hidx, hset, hunset⟩ := firstTrue_compare seg offset .le 0
  refine ⟨idx, hidx, fun h => of_decide_eq_true (hset h), ?_⟩
  intro k hk
  exact Int.not_le.mp (of_decide_eq_false (hunset k hk))

theorem firstTrue_eq (seg : Segment) (offset : Nat) :
    ∃ idx, firstTrue (compare (lanes seg offset) .eq 0) = idx ∧
      (idx < speciesLength → seg.bytes (offset + idx) = 0) ∧
        ∀ k < idx, seg.bytes (offset + k) ≠ 0 := by
  obtain ⟨idx, hidx, hset, hunset⟩ := firstTrue_compare seg offset .eq 0
  refine ⟨idx, hidx, fun h => signed_eq_zero.mp (of_decide_eq_true (hset h)), ?_⟩
  intro k hk h0
  exact of_decide_eq_false (hunset k hk) (signed_eq_zero.mpr h0)

/-! ## What a scan may do -/

/-- There is no zero byte among the first `n`. -/
def NoZero (seg : Segment) (n : Nat) : Prop := ∀ i < n, seg.bytes i ≠ 0

/-- The first zero byte is at `p`. -/
def FirstZero (seg : Segment) (p : Nat) : Prop := seg.bytes p = 0 ∧ NoZero seg p

theorem NoZero.le_firstZero {seg : Segment} {n p : Nat} (h : NoZero seg n)
    (hp : FirstZero seg p) : n ≤ p := by
  by_contra hlt
  exact h p (by omega) hp.1

/-- What a scan of the first `length` bytes may read, and compute without wrapping. -/
def Event.Within (seg : Segment) (length : Nat) : Event → Prop
  | .round => True
  | .load o => ∃ n : Nat, o = n ∧ n % 16 = 0 ∧ n + 16 ≤ length ∧ NoZero seg n
  | .get o => ∃ n : Nat, o = n ∧ n < length ∧ NoZero seg (n / 16 * 16)
  | .int x => -2 ^ 31 ≤ x ∧ x < 2 ^ 31

def rounds (t : List Event) : Nat := t.count .round

/-- The log of a scan with at most `n` rounds so far. -/
structure Logged (seg : Segment) (length n : Nat) (t : List Event) : Prop where
  within : ∀ e ∈ t, e.Within seg length
  rounds_le : rounds t ≤ n

/-- How a scan fails: it reads past a segment shorter than `length`. -/
def Overrun (seg : Segment) (length n : Nat) (e : Exn) (t : List Event) : Prop :=
  e = .indexOutOfBounds ∧ seg.byteSize.toInt < length ∧ Logged seg length n t

section

variable {seg : Segment} {length n : Nat} {t : List Event}

theorem Logged.mono {m : Nat} (h : Logged seg length n t) (hnm : n ≤ m) : Logged seg length m t :=
  ⟨h.within, Nat.le_trans h.rounds_le hnm⟩

theorem Logged.init : Logged seg length 0 [] := ⟨by simp, Nat.le_refl _⟩

theorem Logged.concat (h : Logged seg length n t) (e : Event) (he : e.Within seg length) :
    Logged seg length (n + if e = .round then 1 else 0) (t ++ [e]) := by
  refine ⟨?_, ?_⟩
  · intro e' he'
    rcases List.mem_append.mp he' with h' | h'
    · exact h.within e' h'
    · rw [List.mem_singleton.mp h']
      exact he
  · have hle := h.rounds_le
    unfold rounds at hle ⊢
    rw [List.count_append, List.count_singleton]
    by_cases hr : e = .round <;> simp [hr] <;> omega

variable {α : Type} {Q : α → List Event → Prop} {E : Exn → List Event → Prop}

theorem round_bind {f : Unit → Scan α} (h : Logged seg length n t)
    (hf : ∀ t', Logged seg length (n + 1) t' → Ensures Q E (f () t')) :
    Ensures Q E ((log .round >>= f) t) :=
  Ensures.bind (.ok (h.concat .round trivial)) fun _ t' h' => hf t' h'

theorem int_bind {f : Int → Scan α} {x : Int} (h : Logged seg length n t) (h₁ : -2 ^ 31 ≤ x)
    (h₂ : x < 2 ^ 31) (hf : ∀ t', Logged seg length n t' → Ensures Q E (f x t')) :
    Ensures Q E ((int x >>= f) t) := by
  refine Ensures.bind (P := fun v t' => v = x ∧ Logged seg length n t')
    (.ok ⟨int32_eq h₁ h₂, h.concat (.int x) ⟨h₁, h₂⟩⟩) ?_
  intro v t' h'
  obtain ⟨rfl, h'⟩ := h'
  exact hf t' h'

/-- A `get` that is inside the scan. -/
theorem get_bind {f : Int → Scan α} {o m : Nat} (h : Logged seg length n t) (hnm : n ≤ m)
    (ho : o < length) (hz : NoZero seg (o / 16 * 16))
    (hf : ∀ t', Logged seg length n t' →
      Ensures Q (Overrun seg length m) (f (signed (seg.bytes o)) t')) :
    Ensures Q (Overrun seg length m) ((seg.get o >>= f) t) := by
  have hlog : Logged seg length n (t ++ [.get o]) := h.concat (.get o) ⟨o, rfl, ho, hz⟩
  have hget : Ensures (fun b t' => b = signed (seg.bytes o) ∧ Logged seg length n t')
      (Overrun seg length m) (seg.get o t) := by
    unfold Segment.get
    refine Ensures.bind (P := fun _ t' => Logged seg length n t') (.ok hlog) ?_
    intro _ t' h'
    by_cases hin : seg.Inside o 1
    · rw [if_pos hin]
      exact .ok ⟨rfl, h'⟩
    · rw [if_neg hin]
      refine .error ⟨rfl, ?_, h'.mono hnm⟩
      unfold Segment.Inside at hin
      omega
  refine Ensures.bind hget ?_
  intro b t' h'
  obtain ⟨rfl, h'⟩ := h'
  exact hf t' h'

/-- A load of a block of the scan. -/
theorem load_bind {f : List Int → Scan α} {o m : Nat} (h : Logged seg length n t) (hnm : n ≤ m)
    (h16 : o % 16 = 0) (ho : o + 16 ≤ length) (hz : NoZero seg o)
    (hf : ∀ t', Logged seg length n t' → Ensures Q (Overrun seg length m) (f (lanes seg o) t')) :
    Ensures Q (Overrun seg length m) ((seg.fromMemorySegment o >>= f) t) := by
  have hlog : Logged seg length n (t ++ [.load o]) := h.concat (.load o) ⟨o, rfl, h16, ho, hz⟩
  have hload : Ensures (fun l t' => l = lanes seg o ∧ Logged seg length n t') (Overrun seg length m)
      (seg.fromMemorySegment o t) := by
    unfold Segment.fromMemorySegment
    refine Ensures.bind (P := fun _ t' => Logged seg length n t') (.ok hlog) ?_
    intro _ t' h'
    by_cases hin : seg.Inside o speciesLength
    · rw [if_pos hin]
      exact .ok ⟨rfl, h'⟩
    · rw [if_neg hin]
      refine .error ⟨rfl, ?_, h'.mono hnm⟩
      unfold Segment.Inside speciesLength at hin
      omega
  refine Ensures.bind hload ?_
  intro l t' h'
  obtain ⟨rfl, h'⟩ := h'
  exact hf t' h'

end

/-! ## What a scan has seen -/

/-- The scan is at `offset`. A negative byte that made `ascii` false may lie
ahead, but before the terminator. -/
structure Seen (seg : Segment) (offset : Nat) (ascii : Bool) : Prop where
  noZero : NoZero seg offset
  positive : ascii = true → ∀ i < offset, 0 < signed (seg.bytes i)
  negative : ascii = false → ∃ j, signed (seg.bytes j) < 0 ∧ NoZero seg (j + 1)

/-- What `strlen` returns for a terminator at `p`. -/
def Stops (seg : Segment) (p : Nat) (r : Int) : Prop :=
  (∀ i < p, 0 < signed (seg.bytes i)) ∧ r = p ∨ (∃ i < p, signed (seg.bytes i) < 0) ∧ r = -p

section

variable {seg : Segment} {offset m : Nat} {ascii : Bool}

theorem Seen.init : Seen seg 0 true :=
  ⟨fun _ h => absurd h (Nat.not_lt_zero _), fun _ _ h => absurd h (Nat.not_lt_zero _), by simp⟩

theorem NoZero.add (h : NoZero seg offset) (hm : ∀ k < m, seg.bytes (offset + k) ≠ 0) :
    NoZero seg (offset + m) := by
  intro i hi
  by_cases hlt : i < offset
  · exact h i hlt
  · obtain ⟨k, rfl⟩ := Nat.exists_eq_add_of_le (Nat.le_of_not_lt hlt)
    exact hm k (by omega)

theorem positive_add (h : ∀ i < offset, 0 < signed (seg.bytes i))
    (hm : ∀ k < m, 0 < signed (seg.bytes (offset + k))) :
    ∀ i < offset + m, 0 < signed (seg.bytes i) := by
  intro i hi
  by_cases hlt : i < offset
  · exact h i hlt
  · obtain ⟨k, rfl⟩ := Nat.exists_eq_add_of_le (Nat.le_of_not_lt hlt)
    exact hm k (by omega)

theorem Seen.add (h : Seen seg offset ascii) (hz : ∀ k < m, seg.bytes (offset + k) ≠ 0)
    (hpos : ascii = true → ∀ k < m, 0 < signed (seg.bytes (offset + k))) :
    Seen seg (offset + m) ascii :=
  ⟨h.noZero.add hz, fun ha => positive_add (h.positive ha) (hpos ha), h.negative⟩

/-- A negative byte ahead, with no zero byte up to it. -/
theorem Seen.leave (h : NoZero seg offset) (hz : ∀ k < m, seg.bytes (offset + k) ≠ 0)
    (hneg : signed (seg.bytes (offset + m)) < 0) : Seen seg offset false := by
  refine ⟨h, by simp, fun _ => ⟨offset + m, hneg, ?_⟩⟩
  refine NoZero.add (m := 1) (h.add hz) ?_
  intro k hk h0
  obtain rfl : k = 0 := by omega
  rw [Nat.add_zero] at h0
  rw [signed_eq_zero.mpr h0] at hneg
  omega

/-- One byte further. -/
theorem Seen.next (h : Seen seg offset ascii) (hb : signed (seg.bytes offset) ≠ 0) :
    Seen seg (offset + 1) (if signed (seg.bytes offset) < 0 then false else ascii) := by
  have hnz : ∀ k < 1, seg.bytes (offset + k) ≠ 0 := by
    intro k hk h0
    obtain rfl : k = 0 := by omega
    exact hb (signed_eq_zero.mpr h0)
  by_cases hneg : signed (seg.bytes offset) < 0
  · rw [if_pos hneg]
    exact ⟨h.noZero.add hnz, by simp, fun _ => ⟨offset, hneg, h.noZero.add hnz⟩⟩
  · rw [if_neg hneg]
    refine h.add hnz fun _ k hk => ?_
    obtain rfl : k = 0 := by omega
    rw [Nat.add_zero]
    omega

theorem Seen.stops_true (h : Seen seg offset true) : Stops seg offset offset :=
  .inl ⟨h.positive rfl, rfl⟩

theorem Seen.stops_false (h : Seen seg offset false) (hzero : seg.bytes offset = 0) :
    Stops seg offset (-offset) := by
  obtain ⟨j, hneg, hz⟩ := h.negative rfl
  have hlt : j < offset := by
    by_contra hge
    exact hz offset (by omega) hzero
  exact .inr ⟨⟨j, hlt, hneg⟩, rfl⟩

end

/-! ## The loops -/

/-- The most rounds the three loops make together. -/
def maxRounds (length : Nat) : Nat := length / 16 + 17

/-- A terminator was found, and `r` is what is returned for it. -/
def Found (seg : Segment) (length : Nat) (r : Int) (t : List Event) : Prop :=
  (∃ p, FirstZero seg p ∧ p < length ∧ Stops seg p r) ∧ Logged seg length (maxRounds length) t

/-- Before a round of the first loop. -/
def AsciiBlocks (seg : Segment) (length : Nat) (s : Int × Bool) (t : List Event) : Prop :=
  ∃ offset : Nat, s = (↑offset, true) ∧ offset % 16 = 0 ∧ offset ≤ length / 16 * 16 ∧
    Seen seg offset true ∧
    Logged seg length (offset / 16) t

/-- After the first loop, and before a round of the second: short of the upper
bound after the `break` only. -/
def Blocks (seg : Segment) (length : Nat) (s : Int × Bool) (t : List Event) : Prop :=
  ∃ (offset : Nat) (ascii : Bool), s = (↑offset, ascii) ∧ offset % 16 = 0 ∧
    offset ≤ length / 16 * 16 ∧
    (offset < length / 16 * 16 → ascii = false) ∧ Seen seg offset ascii ∧
    Logged seg length (offset / 16 + 1) t

/-- How many rounds a block loop can still make. -/
def blocksLeft (length : Nat) (s : Int × Bool) : Nat := ((length / 16 * 16 : Nat) - s.1).toNat / 16

/-- Before a round of the third loop. -/
def Scalars (seg : Segment) (length : Nat) (s : Int × Bool) (t : List Event) : Prop :=
  ∃ (offset : Nat) (ascii : Bool), s = (↑offset, ascii) ∧ length / 16 * 16 ≤ offset ∧
    offset ≤ length ∧
    Seen seg offset ascii ∧ Logged seg length (offset - length / 16 * 16 + length / 16 + 1) t

section

variable {seg : Segment} {length fuel : Nat} {s : Int × Bool} {t : List Event}

theorem loopBound_natCast (length : Nat) : loopBound length = (length / 16 * 16 : Nat) := by
  unfold loopBound speciesLength
  omega

theorem asciiBlock_spec (hlen : length < 2 ^ 31) (h : AsciiBlocks seg length s t) :
    Ensures (Turn.Post (fun s' t' => AsciiBlocks seg length s' t' ∧
        blocksLeft length s' < blocksLeft length s)
      (Blocks seg length) (Found seg length)) (Overrun seg length (maxRounds length))
      (asciiBlock seg (length / 16 * 16 : Nat) s t) := by
  obtain ⟨offset, rfl, h16, hle, hseen, hlog⟩ := h
  unfold asciiBlock
  by_cases hlt : (offset : Int) < (length / 16 * 16 : Nat)
  · have hmax : offset / 16 + 1 ≤ maxRounds length := by unfold maxRounds; omega
    simp only [hlt, if_true]
    refine round_bind hlog fun t₁ h₁ => ?_
    refine load_bind h₁ hmax h16 (by omega) hseen.noZero fun t₂ h₂ => ?_
    obtain ⟨idx, hidx, hset, hunset⟩ := firstTrue_le seg offset
    have hnz : ∀ k < idx, seg.bytes (offset + k) ≠ 0 := fun k hk h0 => by
      have := hunset k hk
      rw [signed_eq_zero.mpr h0] at this
      omega
    have hspecies : speciesLength = 16 := rfl
    simp only [hidx]
    by_cases hfound : idx < speciesLength
    · rw [if_pos hfound]
      refine int_bind h₂ (by omega) (by omega) fun t₃ h₃ => ?_
      have hblock : NoZero seg ((offset + idx) / 16 * 16) := by
        rw [show (offset + idx) / 16 * 16 = offset by omega]
        exact hseen.noZero
      refine get_bind (o := offset + idx) h₃ hmax (by omega) hblock fun t₄ h₄ => ?_
      by_cases hb : signed (seg.bytes (offset + idx)) = 0
      · rw [if_pos hb]
        refine int_bind h₄ (by omega) (by omega) fun t₅ h₅ => ?_
        have hseen' := hseen.add hnz fun _ => hunset
        exact .ok ⟨⟨offset + idx, ⟨signed_eq_zero.mp hb, hseen'.noZero⟩, by omega,
          hseen'.stops_true⟩, h₅.mono hmax⟩
      · rw [if_neg hb]
        have hneg := hset hfound
        exact .ok ⟨offset, false, rfl, h16, hle, fun _ => rfl,
          Seen.leave hseen.noZero hnz (by omega), h₄⟩
    · rw [if_neg hfound]
      refine int_bind h₂ (by omega) (by omega) fun t₃ h₃ => ?_
      have hseen' : Seen seg (offset + 16) true :=
        hseen.add (fun k hk => hnz k (by omega)) fun _ k hk => hunset k (by omega)
      refine .ok ⟨⟨offset + 16, rfl, by omega, by omega, hseen', h₃.mono (by omega)⟩, ?_⟩
      unfold blocksLeft
      dsimp only
      omega
  · simp only [hlt, if_false]
    exact .ok ⟨offset, true, rfl, h16, hle, fun h => absurd h (by omega), hseen,
      hlog.mono (by omega)⟩

theorem nonAsciiBlock_spec (hlen : length < 2 ^ 31) (h : Blocks seg length s t) :
    Ensures (Turn.Post (fun s' t' => Blocks seg length s' t' ∧
        blocksLeft length s' < blocksLeft length s)
      (Scalars seg length) (Found seg length)) (Overrun seg length (maxRounds length))
      (nonAsciiBlock seg (length / 16 * 16 : Nat) s t) := by
  obtain ⟨offset, ascii, rfl, h16, hle, hascii, hseen, hlog⟩ := h
  unfold nonAsciiBlock
  by_cases hlt : (offset : Int) < (length / 16 * 16 : Nat)
  · have hmax : offset / 16 + 1 + 1 ≤ maxRounds length := by unfold maxRounds; omega
    have hspecies : speciesLength = 16 := rfl
    obtain rfl := hascii (by omega)
    simp only [hlt, if_true]
    refine round_bind hlog fun t₁ h₁ => ?_
    refine load_bind h₁ hmax h16 (by omega) hseen.noZero fun t₂ h₂ => ?_
    obtain ⟨idx, hidx, hset, hunset⟩ := firstTrue_eq seg offset
    simp only [hidx]
    by_cases hfound : idx < speciesLength
    · rw [if_pos hfound]
      refine int_bind h₂ (by omega) (by omega) fun t₃ h₃ => ?_
      refine int_bind h₃ (by omega) (by omega) fun t₄ h₄ => ?_
      have hseen' := hseen.add hunset fun h => absurd h Bool.false_ne_true
      have hzero := hset hfound
      exact .ok ⟨⟨offset + idx, ⟨hzero, hseen'.noZero⟩, by omega, hseen'.stops_false hzero⟩,
        h₄.mono hmax⟩
    · rw [if_neg hfound]
      refine int_bind h₂ (by omega) (by omega) fun t₃ h₃ => ?_
      have hseen' : Seen seg (offset + 16) false :=
        hseen.add (fun k hk => hunset k (by omega)) fun h => absurd h Bool.false_ne_true
      refine .ok ⟨⟨offset + 16, false, rfl, by omega, by omega, fun _ => rfl, hseen',
        h₃.mono (by omega)⟩, ?_⟩
      unfold blocksLeft
      dsimp only
      omega
  · simp only [hlt, if_false]
    exact .ok ⟨offset, ascii, rfl, by omega, by omega, hseen, hlog.mono (by omega)⟩

/-- The scan ended without a terminator. -/
def Exhausted (seg : Segment) (length : Nat) (_ : Int × Bool) (t : List Event) : Prop :=
  NoZero seg length ∧ Logged seg length (maxRounds length) t

theorem scalar_spec (hlen : length < 2 ^ 31) (h : Scalars seg length s t) :
    Ensures (Turn.Post (fun s' t' => Scalars seg length s' t' ∧
      (length - s'.1).toNat < (length - s.1).toNat)
      (Exhausted seg length) (Found seg length)) (Overrun seg length (maxRounds length))
      (scalar seg length s t) := by
  obtain ⟨offset, ascii, rfl, hge, hle, hseen, hlog⟩ := h
  unfold scalar
  by_cases hlt : (offset : Int) < length
  · have hmax : offset - length / 16 * 16 + length / 16 + 1 + 1 ≤ maxRounds length := by
      unfold maxRounds; omega
    simp only [hlt, if_true]
    refine round_bind hlog fun t₁ h₁ => ?_
    have hblock : NoZero seg (offset / 16 * 16) := fun i hi => hseen.noZero i (by omega)
    refine get_bind h₁ hmax (by omega) hblock fun t₂ h₂ => ?_
    by_cases hb : signed (seg.bytes offset) = 0
    · have hzero := signed_eq_zero.mp hb
      rw [if_pos hb]
      cases ascii with
      | true =>
        exact .ok ⟨⟨offset, ⟨hzero, hseen.noZero⟩, by omega, hseen.stops_true⟩, h₂.mono hmax⟩
      | false =>
        refine int_bind h₂ (by omega) (by omega) fun t₃ h₃ => ?_
        exact .ok ⟨⟨offset, ⟨hzero, hseen.noZero⟩, by omega, hseen.stops_false hzero⟩, h₃.mono hmax⟩
    · rw [if_neg hb]
      refine int_bind h₂ (by omega) (by omega) fun t₃ h₃ => ?_
      have hseen' :
          Seen seg (offset + 1) (if signed (seg.bytes offset) < 0 then false else ascii) :=
        hseen.next hb
      refine .ok ⟨⟨offset + 1, _, rfl, by omega, by omega, hseen', h₃.mono (by omega)⟩, ?_⟩
      show (length - ((offset : Int) + 1)).toNat < (length - (offset : Int)).toNat
      omega
  · obtain rfl : offset = length := by omega
    simp only [hlt, if_false]
    exact .ok ⟨hseen.noZero, hlog.mono (by unfold maxRounds; omega)⟩

theorem asciiBlocks_spec (hlen : length < 2 ^ 31) (hfuel : maxRounds length ≤ fuel) :
    Ensures (Exit.Post (Blocks seg length) (Found seg length))
      (Overrun seg length (maxRounds length))
      (loop (asciiBlock seg (length / 16 * 16 : Nat)) fuel (0, true) []) := by
  refine loop_spec (AsciiBlocks seg length) (blocksLeft length)
    (fun _ _ => asciiBlock_spec hlen) ?_ ⟨0, rfl, rfl, Nat.zero_le _, .init, .init⟩
  unfold maxRounds at hfuel
  unfold blocksLeft
  dsimp only
  omega

theorem nonAsciiBlocks_spec (hlen : length < 2 ^ 31) (hfuel : maxRounds length ≤ fuel)
    (h : Blocks seg length s t) :
    Ensures (Exit.Post (Scalars seg length) (Found seg length))
      (Overrun seg length (maxRounds length))
      ((if s.1 < (length / 16 * 16 : Nat) then
          loop (nonAsciiBlock seg (length / 16 * 16 : Nat)) fuel s
        else return .left s : Scan (Exit (Int × Bool) Int)) t) := by
  have hoffset := h
  obtain ⟨offset, ascii, rfl, h16, hle, hascii, hseen, hlog⟩ := hoffset
  by_cases hlt : (offset : Int) < (length / 16 * 16 : Nat)
  · simp only [hlt, if_true]
    refine loop_spec (Blocks seg length) (blocksLeft length)
      (fun _ _ => nonAsciiBlock_spec hlen) ?_ h
    unfold maxRounds at hfuel
    unfold blocksLeft
    dsimp only
    omega
  · simp only [hlt, if_false]
    exact .ok ⟨offset, ascii, rfl, by omega, by omega, hseen, hlog.mono (by omega)⟩

theorem scalars_spec (hlen : length < 2 ^ 31) (hfuel : maxRounds length ≤ fuel)
    (h : Scalars seg length s t) :
    Ensures (Exit.Post (Exhausted seg length) (Found seg length))
      (Overrun seg length (maxRounds length))
      (loop (scalar seg length) fuel s t) := by
  refine loop_spec (Scalars seg length) (fun s => (length - s.1).toNat)
    (fun _ _ => scalar_spec hlen) ?_ h
  obtain ⟨offset, ascii, rfl, hge, -⟩ := h
  unfold maxRounds at hfuel
  show (length - (offset : Int)).toNat < fuel
  omega

/-- How `strlen` ends: at the terminator, or with an exception if there is none
in reach. -/
theorem strlen_spec (hlen : length < 2 ^ 31) (hfuel : maxRounds length ≤ fuel) :
    Ensures (fun r t => ∃ v, r = some v ∧ Found seg length v t)
      (fun e t => (e = .indexOutOfBounds ∧ seg.byteSize.toInt < length ∨
          e = .illegalArgument "String too large" ∧ NoZero seg length) ∧
            Logged seg length (maxRounds length) t)
      (strlen fuel seg length []) := by
  have hover : ∀ e t, Overrun seg length (maxRounds length) e t →
      (e = .indexOutOfBounds ∧ seg.byteSize.toInt < length ∨
        e = .illegalArgument "String too large" ∧ NoZero seg length) ∧
          Logged seg length (maxRounds length) t :=
    fun e t h => ⟨.inl ⟨h.1, h.2.1⟩, h.2.2⟩
  unfold strlen
  rw [loopBound_natCast]
  refine Ensures.bind ((asciiBlocks_spec hlen hfuel).mono (fun _ _ => id) hover) ?_
  intro exit t₁ h₁
  have h₂ := Exit.andThen_spec h₁ fun _ _ => nonAsciiBlocks_spec hlen hfuel
  refine Ensures.bind (h₂.mono (fun _ _ => id) hover) ?_
  intro exit t₂ h₂
  have h₃ := Exit.andThen_spec h₂ fun _ _ => scalars_spec hlen hfuel
  refine Ensures.bind (h₃.mono (fun _ _ => id) hover) ?_
  intro exit t₃ h₃
  cases exit with
  | left s => exact .error ⟨.inr ⟨rfl, h₃.1⟩, h₃.2⟩
  | returned v => exact .ok ⟨v, rfl, h₃⟩
  | running => exact h₃.elim

end

/-! ## What is read -/

/-- The event reads the byte at `i`. -/
def Event.Reads : Event → Int → Prop
  | .load o, i => o ≤ i ∧ i < o + speciesLength
  | .get o, i => i = o
  | .round, _ => False
  | .int _, _ => False

/-- What is read is inside the first `length` bytes, in a 16-byte block that
starts before any terminator. -/
theorem Event.Within.reads {seg : Segment} {length : Nat} {e : Event} (h : e.Within seg length)
    {i : Int} (hi : e.Reads i) :
    0 ≤ i ∧ i < length ∧ NoZero seg (i.toNat / 16 * 16) := by
  cases e with
  | round => exact hi.elim
  | int x => exact hi.elim
  | load o =>
    obtain ⟨n, rfl, h16, hle, hz⟩ := h
    obtain ⟨h₁, h₂⟩ := hi
    unfold speciesLength at h₂
    refine ⟨by omega, by omega, ?_⟩
    rw [show i.toNat / 16 * 16 = n by omega]
    exact hz
  | get o =>
    obtain ⟨n, rfl, hlt, hz⟩ := h
    obtain rfl := hi
    exact ⟨by omega, by omega, hz⟩

/-- Bytes of one 16-byte block are on one page. -/
theorem page_eq {a page i : Nat} (ha : 16 ∣ a) (hpage : 16 ∣ page) :
    (a + i) / page = (a + i / 16 * 16) / page := by
  obtain ⟨a, rfl⟩ := ha
  obtain ⟨page, rfl⟩ := hpage
  rw [← Nat.div_div_eq_div_mul, ← Nat.div_div_eq_div_mul]
  congr 1
  omega

/-- **The scan stays in the blocks of the string.** With a terminator at `p`,
every byte read is below `length` and in a block that starts at or before `p`;
so it is on a page, of any size that blocks divide, with a byte of the string
or its terminator. With or without one, no `int` wraps and the loops end. -/
theorem strlen_stays_within (seg : Segment) (length fuel : Nat) (hlen : length < 2 ^ 31)
    (hfuel : length / 16 + 17 ≤ fuel) :
    (∀ p, FirstZero seg p → p < length →
      ∀ e ∈ Method.fields (strlen fuel seg length []), ∀ i, e.Reads i →
        0 ≤ i ∧ i < length ∧ i / 16 * 16 ≤ p ∧
          (16 ∣ seg.address.toNat → ∀ page, 16 ∣ page →
            ∃ j ≤ p, (seg.address.toNat + i.toNat) / page = (seg.address.toNat + j) / page)) ∧
      (∀ x, .int x ∈ Method.fields (strlen fuel seg length []) → -2 ^ 31 ≤ x ∧ x < 2 ^ 31) ∧
      Loop.outcome (strlen fuel seg length []) ≠ .ok none ∧
      rounds (Method.fields (strlen fuel seg length [])) ≤ length / 16 + 17 := by
  have hspec : Ensures _ _ (strlen fuel seg length []) := strlen_spec hlen hfuel
  generalize strlen fuel seg length [] = r at hspec ⊢
  have hlog : Logged seg length (maxRounds length) (Method.fields r) := by
    cases hspec with
    | ok h => exact h.choose_spec.2.2
    | error h => exact h.2
  refine ⟨?_, fun x hx => hlog.within _ hx, ?_, hlog.rounds_le⟩
  · intro p hp hlt e he i hi
    obtain ⟨h0, hilt, hz⟩ := (hlog.within e he).reads hi
    have hle := hz.le_firstZero hp
    exact ⟨h0, hilt, by omega, fun ha page hpage => ⟨i.toNat / 16 * 16, hle, page_eq ha hpage⟩⟩
  · cases hspec with
    | ok h =>
      obtain ⟨v, rfl, -⟩ := h
      simp
    | error h => simp

/-- Twenty letters and a terminator, in a segment without bounds. -/
def twentyLetters : Segment := ⟨0, 0x7fffffffffffffff, fun i => if i = 20 then 0 else 65, by decide⟩

theorem firstZero_twentyLetters : FirstZero twentyLetters 20 := by
  refine ⟨rfl, fun i hi h0 => ?_⟩
  simp [twentyLetters, Nat.ne_of_lt hi] at h0

theorem strlen_stays_within_twentyLetters :
    rounds (Method.fields (strlen 134217744 twentyLetters (2147483647 : Nat) [])) ≤ 134217744 ∧
      ∀ e ∈ Method.fields (strlen 134217744 twentyLetters (2147483647 : Nat) []),
        ∀ i, e.Reads i → i < 32 := by
  obtain ⟨hreads, -, -, hrounds⟩ :=
    strlen_stays_within twentyLetters 2147483647 134217744 (by decide) (by decide)
  refine ⟨hrounds, ?_⟩
  intro e he i hi
  have hblock := (hreads 20 firstZero_twentyLetters (by decide) e he i hi).2.2.1
  omega

end FfiBenchmark.GetString
