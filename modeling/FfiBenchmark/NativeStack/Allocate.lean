/-
`allocate` is first fit over the integers.

The code rounds with `(n + alignment - 1) & -alignment` and subtracts the
segment's address, all modulo `2^64`. `toNat_start`: the result is the
distance from the segment to the least multiple of the alignment at or above
`address + offset`, taken over the naturals, although the sum may wrap past
the top of the address space. What does not fit is then a distance that is
negative as a `long` or past the end, and `asSlice` refuses it.
-/
import FfiBenchmark.NativeStack
import FfiBenchmark.Lib.Rounding

namespace FfiBenchmark.NativeStack

open Rounding

variable {Thread : Type}

/-- The block of `byteSize` bytes that first fits above `offset` starts at the
address `m`. -/
structure FirstFit (s : NativeStack Thread) (byteSize byteAlignment : Long) (m : Nat) : Prop where
  size_nonneg : 0 ≤ byteSize.toInt
  alignment : ∃ k : Nat, byteAlignment.toInt = 2 ^ k
  least : IsLeast {m | byteAlignment.toNat ∣ m ∧ s.segment.address.toNat + s.offset.toNat ≤ m} m
  fits : (m : Int) - s.segment.address.toNat + byteSize.toInt ≤ s.segment.byteSize.toInt

/-! ## The checks -/

theorem eq_twoPow_iff (a : Long) :
    (∃ k : Nat, a.toInt = 2 ^ k) ↔ ∃ k < 63, a = BitVec.twoPow 64 k := by
  constructor
  · intro hex
    obtain ⟨k, hk⟩ := hex
    have hnonneg : 0 ≤ a.toInt := by rw [hk]; exact Int.pow_nonneg (by decide)
    have hnat : a.toNat = 2 ^ k := by
      rw [toInt_eq_toNat hnonneg] at hk
      exact_mod_cast hk
    have hlt := BitVec.toInt_pos_iff.mp hnonneg
    rw [hnat, ← Nat.pow_succ'] at hlt
    have hk : k < 63 := by
      have := (Nat.pow_lt_pow_iff_right (by decide : 1 < 2)).mp hlt
      omega
    exact ⟨k, hk, BitVec.eq_of_toNat_eq (by rw [hnat, BitVec.toNat_twoPow_of_lt (by omega)])⟩
  · intro hex
    obtain ⟨k, hk, rfl⟩ := hex
    have hnat : (BitVec.twoPow 64 k).toNat = 2 ^ k := BitVec.toNat_twoPow_of_lt (by omega)
    have hlt : 2 ^ k < 2 ^ 63 := Nat.pow_lt_pow_right (by decide) hk
    refine ⟨k, ?_⟩
    rw [BitVec.toInt_eq_toNat_of_lt (by rw [hnat]; omega), hnat]
    norm_cast

theorem checkAllocationSizeAndAlign_cases (byteSize byteAlignment : Long) :
    (checkAllocationSizeAndAlign byteSize byteAlignment = .ok () ∧ 0 ≤ byteSize.toInt ∧
      ∃ k < 63, byteAlignment = BitVec.twoPow 64 k) ∨
    ((∃ e, checkAllocationSizeAndAlign byteSize byteAlignment = .error e) ∧
      ¬ (0 ≤ byteSize.toInt ∧ ∃ k < 63, byteAlignment = BitVec.twoPow 64 k)) := by
  unfold checkAllocationSizeAndAlign
  by_cases hsize : byteSize.toInt < 0
  · exact .inr ⟨⟨_, by simp only [hsize, if_true]; rfl⟩, fun h => by omega⟩
  by_cases halign : byteAlignment.toInt ≤ 0 ∨ byteAlignment &&& (byteAlignment - 1) ≠ 0
  · refine .inr ⟨⟨_, by simp only [hsize, if_false, halign, if_true]; rfl⟩, fun h => ?_⟩
    obtain ⟨hpos, hand⟩ := (pos_and_sub_one_iff byteAlignment).mpr h.2
    exact halign.elim (fun hle => by omega) (fun hne => hne hand)
  · refine .inl ⟨by simp only [hsize, if_false, halign]; rfl, by omega, ?_⟩
    rw [not_or, not_not, Int.not_le] at halign
    exact (pos_and_sub_one_iff byteAlignment).mp halign

/-! ## The arithmetic -/

/-- **The start is exact**, whatever wrapped on the way. -/
theorem toNat_start (segment : MemorySegment) {offset : Long}
    (hoff : offset.toNat ≤ segment.byteSize.toNat) {k : Nat} (hk : k < 63) :
    (alignUp (segment.address + offset) (BitVec.twoPow 64 k) - segment.address).toNat =
      roundUp (2 ^ k) (segment.address.toNat + offset.toNat) - segment.address.toNat := by
  have hpow : 2 ^ k ≤ 2 ^ 62 := Nat.pow_le_pow_right (by decide) (by omega)
  have hup : (alignUp (segment.address + offset) (BitVec.twoPow 64 k)).toNat =
      roundUp (2 ^ k) (segment.address.toNat + offset.toNat) % 2 ^ 64 := by
    have h := toNat_add_sub_one_and_neg (segment.address + offset) (show k < 64 by omega)
    rw [BitVec.toNat_add, roundUp_mod (Nat.two_pow_pos k) (Nat.pow_dvd_pow 2 (by omega))] at h
    exact h
  have hge := le_roundUp (Nat.two_pow_pos k) (segment.address.toNat + offset.toNat)
  have hlt := roundUp_lt (Nat.two_pow_pos k) (segment.address.toNat + offset.toNat)
  have hsize := segment.byteSize_lt
  have haddr := segment.address.isLt
  rw [BitVec.toNat_sub, hup]
  omega

/-- The wrapped start fits exactly when the exact one does. -/
theorem encloses_iff (segment : MemorySegment) {offset byteSize : Long}
    (hoff : offset.toNat ≤ segment.byteSize.toNat) (hsize : 0 ≤ byteSize.toInt) {k : Nat}
    (hk : k < 63) :
    segment.Encloses
        (alignUp (segment.address + offset) (BitVec.twoPow 64 k) - segment.address) byteSize ↔
      (roundUp (2 ^ k) (segment.address.toNat + offset.toNat) : Int) - segment.address.toNat +
        byteSize.toInt ≤ segment.byteSize.toInt := by
  have hstart := toNat_start segment hoff hk
  have hge := le_roundUp (Nat.two_pow_pos k) (segment.address.toNat + offset.toNat)
  have hnat := toInt_eq_toNat hsize
  have hlt := segment.byteSize_lt
  generalize alignUp (segment.address + offset) (BitVec.twoPow 64 k) - segment.address =
    start at hstart ⊢
  rw [segment.byteSize_toInt]
  constructor
  · intro h
    have := h.toNat_le
    omega
  · intro h
    have hint : start.toInt = start.toNat := BitVec.toInt_eq_toNat_of_lt (by omega)
    exact ⟨by omega, hsize, by rw [hint, segment.byteSize_toInt]; omega⟩

/-! ## Placing a block -/

/-- Where `allocate` puts a block, and the offset it leaves. -/
def place (segment : MemorySegment) (offset byteSize byteAlignment : Long) :
    Except Exn (MemorySegment × Long) :=
  match checkAllocationSizeAndAlign byteSize byteAlignment with
  | .error e => .error e
  | .ok () =>
    let start := alignUp (segment.address + offset) byteAlignment - segment.address
    match segment.asSlice start byteSize byteAlignment with
    | .error e => .error e
    | .ok slice => .ok (slice, start + byteSize)

/-- A slice and the offset after it, placed at the address `m`. -/
structure PlacedAt (s : NativeStack Thread) (byteSize : Long) (m : Nat) (slice : MemorySegment)
    (offset : Long) : Prop where
  start : ((slice.address - s.segment.address).toNat : Int) = m - s.segment.address.toNat
  size : slice.byteSize = byteSize
  offset : (offset.toInt : Int) = m - s.segment.address.toNat + byteSize.toInt

/-- The offset only rises, by the block and its padding, and stays in the segment. -/
theorem PlacedAt.bounds {s : NativeStack Thread} {byteSize byteAlignment : Long} {m : Nat}
    {slice : MemorySegment} {offset : Long} (h : s.PlacedAt byteSize m slice offset)
    (hfit : s.FirstFit byteSize byteAlignment m) :
    s.offset.toNat ≤ (slice.address - s.segment.address).toNat ∧
      (slice.address - s.segment.address).toNat + slice.byteSize.toNat = offset.toNat ∧
      offset.toNat ≤ s.segment.byteSize.toNat := by
  have hstart := h.start
  have hoffset := h.offset
  have hfits := hfit.fits
  have hge := hfit.least.1.2
  have hsize := toInt_eq_toNat hfit.size_nonneg
  have hnonneg : 0 ≤ offset.toInt := by have := hfit.size_nonneg; omega
  rw [toInt_eq_toNat hnonneg] at hoffset
  rw [s.segment.byteSize_toInt] at hfits
  rw [h.size]
  omega

theorem place_cases (s : NativeStack Thread) (hoff : s.offset.toNat ≤ s.segment.byteSize.toNat)
    (byteSize byteAlignment : Long) :
    (∃ m slice offset, s.FirstFit byteSize byteAlignment m ∧
      place s.segment s.offset byteSize byteAlignment = .ok (slice, offset) ∧
      byteAlignment.toNat ∣ slice.address.toNat ∧ s.PlacedAt byteSize m slice offset) ∨
    (∃ e, (∀ m, ¬ s.FirstFit byteSize byteAlignment m) ∧
      place s.segment s.offset byteSize byteAlignment = .error e) := by
  rcases checkAllocationSizeAndAlign_cases byteSize byteAlignment with
    ⟨hcheck, hsize, k, hk, rfl⟩ | ⟨⟨e, hcheck⟩, hno⟩
  · have hnat : (BitVec.twoPow 64 k).toNat = 2 ^ k := BitVec.toNat_twoPow_of_lt (by omega)
    have hstart := toNat_start s.segment hoff hk
    have henc := encloses_iff s.segment hoff hsize hk
    have hge := le_roundUp (Nat.two_pow_pos k) (s.segment.address.toNat + s.offset.toNat)
    have hdvd := dvd_roundUp (2 ^ k) (s.segment.address.toNat + s.offset.toNat)
    have hleast := isLeast_roundUp (Nat.two_pow_pos k) (s.segment.address.toNat + s.offset.toNat)
    have hlt := s.segment.byteSize_lt
    generalize hr : roundUp (2 ^ k) (s.segment.address.toNat + s.offset.toNat) = r at *
    unfold place
    generalize
      alignUp (s.segment.address + s.offset) (BitVec.twoPow 64 k) - s.segment.address = start at *
    have haligned : 2 ^ k ∣ (s.segment.address + start).toNat := by
      have hsum : s.segment.address.toNat + (r - s.segment.address.toNat) = r := by omega
      rw [BitVec.toNat_add, hstart, hsum]
      exact (Nat.dvd_mod_iff (Nat.pow_dvd_pow 2 (by omega))).mpr hdvd
    by_cases hfits : (r : Int) - s.segment.address.toNat + byteSize.toInt ≤ s.segment.byteSize.toInt
    · have hslice : ∃ slice, s.segment.asSlice start byteSize (BitVec.twoPow 64 k) = .ok slice ∧
          slice.address = s.segment.address + start ∧ slice.byteSize = byteSize :=
        ⟨⟨s.segment.address + start, byteSize, hsize, (henc.mpr hfits).in_range⟩,
          MemorySegment.asSlice_eq_ok.mpr ⟨henc.mpr hfits, by rwa [hnat], rfl, rfl⟩, rfl, rfl⟩
      obtain ⟨slice, hok, haddr, hsz⟩ := hslice
      refine .inl ⟨r, slice, start + byteSize, ⟨hsize, (eq_twoPow_iff _).mpr ⟨k, hk, rfl⟩, ?_,
        hfits⟩, ?_, ?_, ?_⟩
      · rwa [hnat]
      · simp only [hcheck, hok]
      · rwa [hnat, haddr]
      · have hsizeNat := toInt_eq_toNat hsize
        have hsegNat := s.segment.byteSize_toInt
        have hsum : (start + byteSize).toNat = start.toNat + byteSize.toNat := by
          rw [BitVec.toNat_add, Nat.mod_eq_of_lt (by omega)]
        refine ⟨?_, hsz, ?_⟩
        · rw [haddr, BitVec.add_comm, BitVec.add_sub_cancel, hstart]
          omega
        · rw [BitVec.toInt_eq_toNat_of_lt (by omega), hsum]
          omega
    · have herr : ∃ e, s.segment.asSlice start byteSize (BitVec.twoPow 64 k) = .error e := by
        cases hcase : s.segment.asSlice start byteSize (BitVec.twoPow 64 k) with
        | error e => exact ⟨e, rfl⟩
        | ok slice => exact absurd (henc.mp (MemorySegment.asSlice_eq_ok.mp hcase).1) hfits
      obtain ⟨e, herr⟩ := herr
      refine .inr ⟨e, fun m hm => hfits ?_, by simp only [hcheck, herr]⟩
      have hmr : m = r := by
        have hl := hm.least
        rw [hnat] at hl
        exact hl.unique hleast
      exact hmr ▸ hm.fits
  · refine .inr ⟨e, fun m hm => hno ⟨hm.size_nonneg, (eq_twoPow_iff _).mp hm.alignment⟩, ?_⟩
    simp only [place, hcheck]

/-! ## `allocate` -/

variable [DecidableEq Thread]

theorem allocate_eq (s : NativeStack Thread) (t : Thread) (byteSize byteAlignment : Long) :
    allocate t byteSize byteAlignment s =
      if s.owner = some t then
        match place s.segment s.offset byteSize byteAlignment with
        | .ok (slice, offset) => .ok slice { s with offset := offset }
        | .error e => .error e s
      else .error wrongThread s := by
  simp only [allocate, place, Method.bind_apply, checkThread_apply]
  by_cases how : s.owner = some t
  · simp only [how, if_true, Method.get_apply]
    cases hcheck : checkAllocationSizeAndAlign byteSize byteAlignment with
    | error e => simp only [Method.ofExcept_error]
    | ok u =>
      simp only [Method.ofExcept_ok]
      cases hslice : s.segment.asSlice
          (alignUp (s.segment.address + s.offset) byteAlignment - s.segment.address)
          byteSize byteAlignment with
      | error e => simp only [Method.ofExcept_error]
      | ok slice => simp only [Method.ofExcept_ok, Method.modify_apply, Method.pure_apply, how]
  · simp only [how, if_false]

variable {s : NativeStack Thread} {t : Thread}

/-- What an `allocate` by the owner can do: refuse and change nothing, or
place a block between the offset and the end of the segment. -/
theorem allocate_cases (how : s.owner = some t) (hoff : s.offset.toNat ≤ s.segment.byteSize.toNat)
    (byteSize byteAlignment : Long) :
    (∃ e, (∀ m, ¬ s.FirstFit byteSize byteAlignment m) ∧
      allocate t byteSize byteAlignment s = .error e s) ∨
    (∃ m slice offset, s.FirstFit byteSize byteAlignment m ∧
      byteAlignment.toNat ∣ slice.address.toNat ∧
      s.PlacedAt byteSize m slice offset ∧
      allocate t byteSize byteAlignment s = .ok slice { s with offset := offset }) := by
  rw [allocate_eq, if_pos how]
  rcases place_cases s hoff byteSize byteAlignment with
    ⟨m, slice, offset, hfit, hplace, hdvd, hat⟩ | ⟨e, hno, hplace⟩
  · exact .inr ⟨m, slice, offset, hfit, hdvd, hat, by rw [hplace]⟩
  · exact .inl ⟨e, hno, by rw [hplace]⟩

/-- **First fit in wrapping arithmetic.** An `allocate` by the owner returns
exactly when the alignment is a positive power of two, the size is not
negative and the block at the least aligned address `m` at or above
`address + offset` ends inside the segment, all over the unbounded
integers. It then returns that block and leaves the offset at its end;
otherwise it throws and changes nothing. -/
theorem allocate_first_fit (how : s.owner = some t)
    (hoff : 0 ≤ s.offset.toInt ∧ s.offset.toInt ≤ s.segment.byteSize.toInt)
    (byteSize byteAlignment : Long) :
    ((∃ slice s', allocate t byteSize byteAlignment s = .ok slice s') ↔
      ∃ m, s.FirstFit byteSize byteAlignment m) ∧
    (∀ m, s.FirstFit byteSize byteAlignment m → ∃ slice offset, s.PlacedAt byteSize m slice offset ∧
      allocate t byteSize byteAlignment s = .ok slice { s with offset := offset }) ∧
    ((∀ m, ¬ s.FirstFit byteSize byteAlignment m) →
      ∃ e, allocate t byteSize byteAlignment s = .error e s) := by
  have hle : s.offset.toNat ≤ s.segment.byteSize.toNat := by
    have h := hoff.2
    rw [toInt_eq_toNat hoff.1, s.segment.byteSize_toInt] at h
    omega
  rcases allocate_cases how hle byteSize byteAlignment with
    ⟨e, hno, herr⟩ | ⟨m, slice, offset, hfit, -, hat, hok⟩
  · refine ⟨⟨?_, fun ⟨m, hm⟩ => absurd hm (hno m)⟩, fun m hm => absurd hm (hno m),
      fun _ => ⟨e, herr⟩⟩
    intro hex
    obtain ⟨slice, s', hok⟩ := hex
    rw [herr] at hok
    cases hok
  · refine ⟨⟨fun _ => ⟨m, hfit⟩, fun _ => ⟨_, _, hok⟩⟩, fun m' hm' => ?_,
      fun hno => absurd hfit (hno m)⟩
    obtain rfl := hm'.least.unique hfit.least
    exact ⟨slice, offset, hat, hok⟩

/-- A block that fills a segment at the very end of the address space. -/
theorem allocate_first_fit_at_end :
    let s : NativeStack Nat := new 0 ⟨0xfffffffffffff000, 0x1000, by decide, by decide⟩ false
    ∃ slice offset, s.PlacedAt 0x1000 0xfffffffffffff000 slice offset ∧
      allocate 0 0x1000 1 s = .ok slice { s with offset := offset } :=
  (allocate_first_fit (s := new 0 ⟨0xfffffffffffff000, 0x1000, by decide, by decide⟩ false) rfl
    (by decide) 0x1000 1).2.1 0xfffffffffffff000
    ⟨by decide, ⟨0, by decide⟩, ⟨⟨by decide, by decide⟩, fun _ h => h.2⟩, by decide⟩

end FfiBenchmark.NativeStack
