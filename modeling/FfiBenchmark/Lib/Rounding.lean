/-
Rounding up to a multiple, over the naturals and over machine words.

`roundUp a n` is the least multiple of `a` that is not below `n`
(`isLeast_roundUp`). The bit trick `(n + a - 1) & -a` computes it modulo
`2 ^ w` for every power of two below `2 ^ w` (`toNat_add_sub_one_and_neg`),
also where the sum wraps: `2 ^ w` is itself a multiple of `a`.
-/
import Mathlib.Data.Nat.Bitwise
import Mathlib.Order.Bounds.Basic

namespace Rounding

/-- `n` rounded up to a multiple of `a`. -/
def roundUp (a n : Nat) : Nat := (n + a - 1) / a * a

theorem dvd_roundUp (a n : Nat) : a ∣ roundUp a n := Nat.dvd_mul_left _ _

theorem le_roundUp {a : Nat} (ha : 0 < a) (n : Nat) : n ≤ roundUp a n := by
  have hdiv := Nat.div_add_mod (n + a - 1) a
  have hmod := Nat.mod_lt (n + a - 1) ha
  rw [Nat.mul_comm] at hdiv
  unfold roundUp
  omega

theorem roundUp_lt {a : Nat} (ha : 0 < a) (n : Nat) : roundUp a n < n + a := by
  have hdiv := Nat.div_mul_le_self (n + a - 1) a
  unfold roundUp
  omega

theorem roundUp_le {a n m : Nat} (ha : 0 < a) (hm : a ∣ m) (hn : n ≤ m) : roundUp a n ≤ m := by
  obtain ⟨k, rfl⟩ := hm
  unfold roundUp
  rw [Nat.mul_comm a k]
  refine Nat.mul_le_mul_right a ?_
  rw [Nat.div_le_iff_le_mul_add_pred ha]
  omega

/-- Rounding up gives the least multiple not below the argument. -/
theorem isLeast_roundUp {a : Nat} (ha : 0 < a) (n : Nat) :
    IsLeast {m | a ∣ m ∧ n ≤ m} (roundUp a n) :=
  ⟨⟨dvd_roundUp a n, le_roundUp ha n⟩, fun _ hm => roundUp_le ha hm.1 hm.2⟩

/-- Reducing modulo a multiple of `a` before rounding down to one changes nothing. -/
theorem mod_div_mul {a b : Nat} (hab : a ∣ b) (n : Nat) : n % b / a * a = n / a * a % b := by
  obtain ⟨c, rfl⟩ := hab
  rw [Nat.mod_mul_right_div_self, Nat.mul_comm, Nat.mul_comm (n / a) a, Nat.mul_mod_mul_left]

theorem roundUp_add {a c : Nat} (ha : 0 < a) (hc : a ∣ c) (n : Nat) :
    roundUp a (n + c) = roundUp a n + c := by
  obtain ⟨k, rfl⟩ := hc
  unfold roundUp
  rw [show n + a * k + a - 1 = (n + a - 1) + a * k by omega, Nat.add_mul_div_left _ _ ha,
    Nat.add_mul, Nat.mul_comm k a]

/-- Rounding up modulo a multiple of `a` may start from the reduced argument. -/
theorem roundUp_mod {a b : Nat} (ha : 0 < a) (hab : a ∣ b) (n : Nat) :
    roundUp a (n % b) % b = roundUp a n % b := by
  have h := roundUp_add ha (hab.mul_right (n / b)) (n % b)
  rw [Nat.mod_add_div] at h
  rw [h, Nat.add_mul_mod_self_left]

/-! ## Machine words -/

variable {w : Nat}

/-- Masking with `-2^k` clears the low `k` bits. -/
theorem toNat_and_neg_twoPow (x : BitVec w) (k : Nat) :
    (x &&& -BitVec.twoPow w k).toNat = x.toNat / 2 ^ k * 2 ^ k := by
  have hneg : -BitVec.twoPow w k = BitVec.allOnes w <<< k := by
    rw [BitVec.shiftLeft_eq_mul_twoPow, ← BitVec.neg_one_eq_allOnes, BitVec.neg_mul, BitVec.one_mul]
  have hshift : x &&& -BitVec.twoPow w k = (x >>> k) <<< k := by
    rw [hneg]
    ext i hi
    simp only [BitVec.getElem_and, BitVec.getElem_shiftLeft, BitVec.getElem_allOnes]
    by_cases hik : i < k
    · simp [hik]
    · simp [hik, BitVec.getLsbD_eq_getElem hi, show k + (i - k) = i by omega]
  have hle : x.toNat / 2 ^ k * 2 ^ k ≤ x.toNat := Nat.div_mul_le_self _ _
  rw [hshift, BitVec.toNat_shiftLeft, BitVec.toNat_ushiftRight, Nat.shiftLeft_eq,
    Nat.shiftRight_eq_div_pow, Nat.mod_eq_of_lt (lt_of_le_of_lt hle x.isLt)]

/-- **The mask trick, wrapped sums included.** -/
theorem toNat_add_sub_one_and_neg (n : BitVec w) {k : Nat} (hk : k < w) :
    ((n + BitVec.twoPow w k - 1#w) &&& -BitVec.twoPow w k).toNat =
      roundUp (2 ^ k) n.toNat % 2 ^ w := by
  have hsum : (n + BitVec.twoPow w k - 1#w).toNat = (n.toNat + 2 ^ k - 1) % 2 ^ w := by
    have hpow : 2 ^ k < 2 ^ w := Nat.pow_lt_pow_right (by decide) hk
    have h1 : 1 ≤ 2 ^ k := Nat.one_le_two_pow
    rw [BitVec.toNat_sub, BitVec.toNat_add, BitVec.toNat_twoPow_of_lt hk, BitVec.toNat_ofNat,
      Nat.mod_eq_of_lt (show 1 < 2 ^ w by omega), Nat.add_mod_mod,
      show 2 ^ w - 1 + (n.toNat + 2 ^ k) = (n.toNat + 2 ^ k - 1) + 2 ^ w by omega,
      Nat.add_mod_right]
  rw [toNat_and_neg_twoPow, hsum, roundUp, mod_div_mul (Nat.pow_dvd_pow 2 hk.le)]

/-- The test `0 < x ∧ x & (x - 1) = 0` on signed words. -/
theorem pos_and_sub_one_iff (x : BitVec (w + 1)) :
    (0 < x.toInt ∧ x &&& (x - 1#(w + 1)) = 0#(w + 1)) ↔ ∃ k < w, x = BitVec.twoPow (w + 1) k := by
  constructor
  · intro hex
    obtain ⟨hpos, hand⟩ := hex
    have hmsb : x.msb = false := by
      rw [BitVec.msb_eq_false_iff_two_mul_lt, ← BitVec.toInt_pos_iff]
      exact hpos.le
    rw [BitVec.toInt_eq_toNat_of_msb hmsb] at hpos
    have hx : x.toNat ≠ 0 := by omega
    have hw : 1 < 2 ^ (w + 1) := Nat.one_lt_two_pow (by omega)
    have hsub : (x - 1#(w + 1)).toNat = x.toNat - 1 := by
      rw [BitVec.toNat_sub, BitVec.toNat_ofNat, Nat.mod_eq_of_lt hw,
        show 2 ^ (w + 1) - 1 + x.toNat = (x.toNat - 1) + 2 ^ (w + 1) by omega, Nat.add_mod_right,
        Nat.mod_eq_of_lt (by omega)]
    have hland : x.toNat &&& (x.toNat - 1) = 0 := by
      rw [← hsub, ← BitVec.toNat_and, hand, BitVec.toNat_ofNat, Nat.zero_mod]
    obtain ⟨k, hk⟩ := (Nat.and_sub_one_eq_zero_iff_isPowerOfTwo hx).mp hland
    have hkw : k < w := by
      rw [BitVec.msb_eq_false_iff_two_mul_lt, hk, ← Nat.pow_succ'] at hmsb
      have := (Nat.pow_lt_pow_iff_right (by decide : 1 < 2)).mp hmsb
      omega
    refine ⟨k, hkw, BitVec.eq_of_toNat_eq ?_⟩
    rw [BitVec.toNat_twoPow_of_lt (by omega), hk]
  · intro hex
    obtain ⟨k, hk, rfl⟩ := hex
    have hpow : 2 ^ k < 2 ^ w := Nat.pow_lt_pow_right (by decide) hk
    have h1 : 1 ≤ 2 ^ k := Nat.one_le_two_pow
    have htwo : (BitVec.twoPow (w + 1) k).toNat = 2 ^ k := BitVec.toNat_twoPow_of_lt (by omega)
    refine ⟨?_, BitVec.eq_of_toNat_eq ?_⟩
    · have hmsb : (BitVec.twoPow (w + 1) k).msb = false := by
        rw [BitVec.msb_eq_false_iff_two_mul_lt, htwo, Nat.pow_succ']
        omega
      rw [BitVec.toInt_eq_toNat_of_msb hmsb, htwo]
      omega
    · have hsub : (BitVec.twoPow (w + 1) k - 1#(w + 1)).toNat = 2 ^ k - 1 := by
        rw [BitVec.toNat_sub, htwo, BitVec.toNat_ofNat,
          Nat.mod_eq_of_lt (Nat.one_lt_two_pow (by omega)), show 2 ^ (w + 1) - 1 + 2 ^ k =
          (2 ^ k - 1) + 2 ^ (w + 1) by omega, Nat.add_mod_right,
          Nat.mod_eq_of_lt (by rw [Nat.pow_succ']; omega)]
      rw [BitVec.toNat_and, htwo, hsub, BitVec.toNat_ofNat, Nat.zero_mod,
        Nat.and_sub_one_eq_zero_iff_isPowerOfTwo (by omega)]
      exact ⟨k, rfl⟩

end Rounding
