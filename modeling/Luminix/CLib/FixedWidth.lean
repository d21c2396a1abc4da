import Luminix.CLib.Float
import Mathlib.Algebra.Order.Field.Power
import Mathlib.Algebra.Order.Field.Rat
import Mathlib.Data.Nat.Digits.Lemmas
import Mathlib.Tactic.Linarith
import Mathlib.Tactic.Positivity

/-!
# The width of fixed-point texts

`fixedText` is as wide as its integer digits, its decimals, the point and the sign.  A value of at
least the precision of its format is an integer, so from there on nothing is rounded, and the number
of digits is a matter of the value alone (`length_fixedText_le_iff`).
-/

namespace CLib

theorem length_natDecimal_le_iff {n k : Nat} (hk : 0 < k) :
    (natDecimal n).length ≤ k ↔ n < 10 ^ k := by
  unfold natDecimal
  split_ifs with hn
  · have hpos : 0 < 10 ^ k := by positivity
    simp only [List.length_singleton, hn, hpos, iff_true]
    omega
  · rw [List.length_map, List.length_reverse, Nat.digits_length_le_iff (by norm_num)]

namespace IeeeFormat

variable (F : IeeeFormat) (bits : Nat)

/-- The absolute value of a finite value. -/
def magnitude : ℚ := F.significand bits * 2 ^ ((F.scale bits : ℤ) - F.bias)

/-- **The value of a finite value.** -/
def value : ℚ := if F.isNegative bits then -F.magnitude bits else F.magnitude bits

theorem significand_lt : F.significand bits < 2 ^ (F.fracBits + 1) := by
  have hfraction : F.fraction bits < 2 ^ F.fracBits := Nat.mod_lt _ (by positivity)
  rw [significand, pow_succ]
  split_ifs <;> omega

theorem magnitude_nonneg : 0 ≤ F.magnitude bits := by
  unfold magnitude
  positivity

variable {F bits}

theorem magnitude_eq_of_le (h : F.bias ≤ F.scale bits) :
    F.magnitude bits = (F.significand bits * 2 ^ (F.scale bits - F.bias) : Nat) := by
  rw [magnitude, ← Nat.cast_sub h, zpow_natCast]
  push_cast
  rfl

theorem magnitude_le_of_lt (h : F.scale bits < F.bias) :
    F.magnitude bits ≤ F.significand bits := by
  have hpow : (2 : ℚ) ^ ((F.scale bits : ℤ) - F.bias) ≤ 1 :=
    zpow_le_one_of_nonpos₀ (by norm_num) (by omega)
  exact mul_le_of_le_one_right (Nat.cast_nonneg _) hpow

end IeeeFormat

theorem divRoundEven_le (n d : Nat) : divRoundEven n d ≤ n / d + 1 := by
  unfold divRoundEven
  dsimp only
  split_ifs <;> omega

variable {F : IeeeFormat} {bits k : Nat}

/-- Rounding does not lead beyond the precision of the format. -/
theorem scaled_lt (p : Nat) (hk : 2 ^ (F.fracBits + 1) ≤ 10 ^ k) (h : F.scale bits < F.bias) :
    F.scaled p bits < 10 ^ k * 10 ^ p := by
  have hpos : 0 < 10 ^ p := by positivity
  have htwo : 2 ≤ 10 ^ k := le_trans (Nat.le_self_pow (by omega) 2) hk
  have hlt : F.significand bits * 10 ^ p < 10 ^ k * 10 ^ p :=
    Nat.mul_lt_mul_of_pos_right (lt_of_lt_of_le (F.significand_lt bits) hk) hpos
  have hle : 2 * 1 ≤ 10 ^ k * 10 ^ p := Nat.mul_le_mul htwo hpos
  -- the divisor is at least two, so there is room for the one added in rounding
  have hdiv : F.significand bits * 10 ^ p / 2 ^ (F.bias - F.scale bits) ≤
      F.significand bits * 10 ^ p / 2 :=
    Nat.div_le_div_left (Nat.le_self_pow (by omega) 2) (by norm_num)
  have hround := divRoundEven_le (F.significand bits * 10 ^ p) (2 ^ (F.bias - F.scale bits))
  rw [IeeeFormat.scaled, if_neg (by omega)]
  omega

/-- The digits in front of the point are those of the value. -/
theorem scaled_div_lt_iff (p : Nat) (hk : 2 ^ (F.fracBits + 1) ≤ 10 ^ k) :
    F.scaled p bits / 10 ^ p < 10 ^ k ↔ F.magnitude bits < 10 ^ k := by
  have hpos : 0 < 10 ^ p := by positivity
  rcases Nat.lt_or_ge (F.scale bits) F.bias with h | h
  · have hscaled : F.scaled p bits / 10 ^ p < 10 ^ k :=
      (Nat.div_lt_iff_lt_mul hpos).mpr (scaled_lt p hk h)
    have hmagnitude : F.magnitude bits < 10 ^ k := by
      have hlt : (F.significand bits : ℚ) < 10 ^ k := by
        exact_mod_cast lt_of_lt_of_le (F.significand_lt bits) hk
      exact lt_of_le_of_lt (IeeeFormat.magnitude_le_of_lt h) hlt
    exact iff_of_true hscaled hmagnitude
  · have hscaled : F.scaled p bits / 10 ^ p =
        F.significand bits * 2 ^ (F.scale bits - F.bias) := by
      rw [IeeeFormat.scaled, if_pos h, Nat.mul_right_comm, Nat.mul_div_cancel _ hpos]
    rw [hscaled, IeeeFormat.magnitude_eq_of_le h]
    norm_cast

/-- **Two more than the decimals and `k` digits** are enough for the values between `-10^k` and
`10^(k+1)`, and for no others. -/
theorem length_fixedText_le_iff {p : Nat} (hfinite : F.isFinite bits = true)
    (hk : 2 ^ (F.fracBits + 1) ≤ 10 ^ k) : (fixedText F p bits).length ≤ k + 2 + p ↔
      -10 ^ k < F.value bits ∧ F.value bits < 10 ^ (k + 1) := by
  have hkpos : 0 < k := by
    rcases Nat.eq_zero_or_pos k with rfl | hpos
    · have htwo : 2 ≤ 2 ^ (F.fracBits + 1) := Nat.le_self_pow (by omega) 2
      omega
    · exact hpos
  have hk' : 2 ^ (F.fracBits + 1) ≤ 10 ^ (k + 1) :=
    hk.trans (Nat.pow_le_pow_right (by norm_num) (Nat.le_succ k))
  have hnonneg := F.magnitude_nonneg bits
  have hpow : ∀ n : ℕ, (0 : ℚ) < 10 ^ n := fun n => by positivity
  rw [fixedText, if_pos hfinite, IeeeFormat.value]
  split_ifs with hsign
  · have hdigits := (length_natDecimal_le_iff hkpos).trans (@scaled_div_lt_iff F bits k p hk)
    rw [neg_lt_neg_iff, ← hdigits, and_iff_left (lt_of_le_of_lt (neg_nonpos.mpr hnonneg) (hpow _))]
    simp only [List.length_append, List.length_cons, List.length_nil, length_decimals]
    omega
  · have hdigits := (length_natDecimal_le_iff k.succ_pos).trans
      (@scaled_div_lt_iff F bits (k + 1) p hk')
    rw [← hdigits, and_iff_right (lt_of_lt_of_le (neg_neg_of_pos (hpow _)) hnonneg)]
    simp only [List.length_append, List.length_cons, List.length_nil, length_decimals]
    omega

end CLib
