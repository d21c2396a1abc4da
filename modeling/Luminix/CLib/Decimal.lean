import Luminix.CLib.Integer
import Mathlib.Algebra.Order.Field.Rat
import Mathlib.Algebra.Order.Field.Power
import Mathlib.Data.Nat.Prime.Basic
import Mathlib.Tactic.Linarith
import Mathlib.Tactic.NormNum
import Mathlib.Tactic.Positivity
import Mathlib.Tactic.Ring
import Mathlib.Tactic.Zify

/-!
# Numbers with a point and an exponent

A decimal number has the value `sign * (a * 10^j + d) * 10^(e - j)`, where `a` is the number before
its point, `d` the one of its `j` decimals and `e` its exponent.  A conversion that reads the digits
before the point only, limited to the range of `long` and cut to an `int`, gives this value in two
cases only: it is zero, or the rest of the number does not matter and it fits
(`toInt_eq_scaled_iff`).
-/

namespace CLib

/-! ### Digit strings -/

theorem digitsValue_concat (l : List UInt8) (c : UInt8) :
    digitsValue (l ++ [c]) = 10 * digitsValue l + (c.toNat - 48) := by
  rw [digitsValue, List.foldl_append]
  rfl

theorem digitsValue_append (l r : List UInt8) :
    digitsValue (l ++ r) = digitsValue l * 10 ^ r.length + digitsValue r := by
  induction r using List.reverseRecOn with
  | nil => simp [digitsValue]
  | append_singleton r c ih =>
    rw [← List.append_assoc, digitsValue_concat, ih, digitsValue_concat, List.length_append,
      List.length_singleton, pow_succ]
    ring

theorem toNat_of_isDigit {c : UInt8} (h : isDigit c = true) : 48 ≤ c.toNat ∧ c.toNat ≤ 57 := by
  simpa [isDigit, UInt8.le_iff_toNat_le] using h

variable {l : List UInt8}

theorem digitsValue_lt (h : ∀ c ∈ l, isDigit c = true) : digitsValue l < 10 ^ l.length := by
  induction l using List.reverseRecOn with
  | nil => simp [digitsValue]
  | append_singleton l c ih =>
    have hl := ih fun c hc => h c (List.mem_append_left _ hc)
    obtain ⟨-, hc⟩ := toNat_of_isDigit (h c (List.mem_append_right _ (List.mem_singleton_self c)))
    rw [digitsValue_concat, List.length_append, List.length_singleton, pow_succ]
    omega

/-- Only zeros have the value zero. -/
theorem digitsValue_eq_zero_iff (h : ∀ c ∈ l, isDigit c = true) :
    digitsValue l = 0 ↔ ∀ c ∈ l, c = 48 := by
  induction l using List.reverseRecOn with
  | nil => simp [digitsValue]
  | append_singleton l c ih =>
    have hl := ih fun c hc => h c (List.mem_append_left _ hc)
    obtain ⟨hc, -⟩ := toNat_of_isDigit (h c (List.mem_append_right _ (List.mem_singleton_self c)))
    have hzero : c.toNat - 48 = 0 ↔ c = 48 := by
      rw [← UInt8.toNat_inj]
      show c.toNat - 48 = 0 ↔ c.toNat = 48
      omega
    rw [digitsValue_concat, Nat.add_eq_zero_iff, hzero, Nat.mul_eq_zero]
    simp [hl, or_imp, forall_and]

/-! ### Reading the digits before the point -/

/-- A number of type `long` cut to an `int`, after it has been limited to the range of `long`. -/
def longToInt (n : Int) : Int :=
  intWrap (max (-9223372036854775808) (min n 9223372036854775807))

theorem atoi_eq_longToInt (l : List UInt8) : atoi l = longToInt (strtol l) := rfl

theorem longToInt_eq_self {n : Int} (h : IsInt n) : longToInt n = n := by
  have hlimit : max (-9223372036854775808) (min n 9223372036854775807) = n := by
    obtain ⟨h1, h2⟩ := h
    omega
  rw [longToInt, hlimit, intWrap_eq_self h]

/-- Beyond the range of `long` the sign is lost. -/
theorem longToInt_of_large {n : Int} (h : 9223372036854775807 < n) : longToInt n = -1 := by
  have hlimit : max (-9223372036854775808) (min n 9223372036854775807) = 9223372036854775807 := by
    omega
  rw [longToInt, hlimit]
  rfl

theorem longToInt_of_small {n : Int} (h : n < -9223372036854775808) : longToInt n = 0 := by
  have hlimit : max (-9223372036854775808) (min n 9223372036854775807) = -9223372036854775808 := by
    omega
  rw [longToInt, hlimit]
  rfl

/-- Within that range the value changes by a multiple of `2^32`. -/
theorem dvd_longToInt_sub {n : Int} (hlow : -9223372036854775808 ≤ n)
    (hhigh : n ≤ 9223372036854775807) : 4294967296 ∣ longToInt n - n := by
  have hlimit : max (-9223372036854775808) (min n 9223372036854775807) = n := by omega
  rw [longToInt, hlimit]
  exact Int.dvd_bmod_sub_self

/-- **A positive number that is scaled by a power of ten is changed modulo `2^32`**, unless nothing
is scaled. -/
theorem eq_of_scaled {u a d j : Nat} {e : Int} (hd : d < 10 ^ j) (hu : 0 < u) (hle : u ≤ 2147483648)
    (hmod : (4294967296 : Int) ∣ u - a) (h : (u : ℚ) = (a * 10 ^ j + d : Nat) * 10 ^ (e - j)) :
    d = 0 ∧ e = 0 ∧ u = a := by
  have hten : (10 : ℚ) ≠ 0 := by norm_num
  have hscaled : (u : ℚ) * 10 ^ j = (a * 10 ^ j + d : Nat) * 10 ^ e := by
    rw [h, mul_assoc, ← zpow_natCast, ← zpow_add₀ hten, sub_add_cancel]
  have hpos : 0 < 10 ^ j := by positivity
  obtain ⟨k, rfl | rfl⟩ := e.eq_nat_or_neg
  · -- the number gets larger, and so `a` is at most `u`
    have hnat : u * 10 ^ j = (a * 10 ^ j + d) * 10 ^ k := by
      rw [zpow_natCast] at hscaled
      exact_mod_cast hscaled
    have hpow : 1 ≤ 10 ^ k := Nat.one_le_pow _ _ (by norm_num)
    have hmono : a * 10 ^ j + d ≤ u * 10 ^ j := by
      rw [hnat]
      exact Nat.le_mul_of_pos_right _ hpow
    have hau : a ≤ u := by
      by_contra hlt
      have : (u + 1) * 10 ^ j ≤ a * 10 ^ j := Nat.mul_le_mul_right _ (by omega)
      have : (u + 1) * 10 ^ j = u * 10 ^ j + 10 ^ j := by ring
      omega
    obtain rfl : u = a := by omega
    have hd0 : d = 0 := by omega
    subst hd0
    have hk : 10 ^ k = 1 := by
      have hcancel : u * 10 ^ j * 10 ^ k = u * 10 ^ j * 1 := by
        rw [Nat.mul_one]
        exact hnat.symm
      exact Nat.eq_of_mul_eq_mul_left (Nat.mul_pos hu hpos) hcancel
    refine ⟨rfl, ?_, rfl⟩
    rw [Nat.pow_eq_one] at hk
    omega
  · -- the number gets smaller: `a` is a multiple of `u`
    have hnat : u * 10 ^ k * 10 ^ j = a * 10 ^ j + d := by
      rw [zpow_neg, zpow_natCast, ← div_eq_mul_inv, eq_div_iff (pow_ne_zero k hten)] at hscaled
      have hcast : ((u * 10 ^ k * 10 ^ j : Nat) : ℚ) = (a * 10 ^ j + d : Nat) := by
        rw [← hscaled]
        push_cast
        ring
      exact_mod_cast hcast
    have ha : u * 10 ^ k = a := by
      have hdiv := congrArg (· / 10 ^ j) hnat
      simpa [Nat.mul_div_cancel _ hpos, Nat.mul_add_div hpos, Nat.mul_comm a, Nat.div_eq_of_lt hd]
        using hdiv
    subst ha
    have hd0 : d = 0 := by omega
    refine ⟨hd0, ?_, ?_⟩
    all_goals
      cases k with
      | zero => simp
      | succ k =>
        -- `10^(k+1) - 1` is odd, and `2^32` cannot divide `u`
        exfalso
        obtain ⟨q, hq, hodd⟩ : ∃ q, 10 ^ (k + 1) = q + 1 ∧ Odd q := by
          have hten : 10 ^ (k + 1) = 10 * 10 ^ k := pow_succ' 10 k
          have hone : 1 ≤ 10 ^ k := Nat.one_le_pow _ _ (by norm_num)
          exact ⟨10 ^ (k + 1) - 1, by omega, 5 * 10 ^ k - 1, by omega⟩
        have hfactor : (u : Int) - (u * 10 ^ (k + 1) : Nat) = -((u * q : Nat) : Int) := by
          rw [hq]
          push_cast
          ring
        rw [hfactor, Int.dvd_neg] at hmod
        have hdvd : 2 ^ 32 ∣ u * q := by exact_mod_cast hmod
        have hcoprime : Nat.Coprime (2 ^ 32) q := (Nat.coprime_two_left.mpr hodd).pow_left 32
        have hle' := Nat.le_of_dvd hu (hcoprime.dvd_of_dvd_mul_right hdvd)
        omega

/-- **When the digits before the point are the whole number**: it is zero, or it has no decimals but
zeros, no exponent and fits. -/
theorem longToInt_eq_scaled_iff {sign : Int} (hsign : sign = 1 ∨ sign = -1) {a d j : Nat} {e : Int}
    (hd : d < 10 ^ j) :
    (longToInt (sign * a) : ℚ) = sign * ((a * 10 ^ j + d : Nat) * 10 ^ (e - j)) ↔
      (a = 0 ∧ d = 0) ∨ (d = 0 ∧ e = 0 ∧ IsInt (sign * a)) := by
  have hten : (10 : ℚ) ≠ 0 := by norm_num
  constructor
  · intro h
    by_cases hzero : a * 10 ^ j + d = 0
    · left
      rw [Nat.add_eq_zero_iff, Nat.mul_eq_zero] at hzero
      have hpow : 10 ^ j ≠ 0 := by positivity
      exact ⟨hzero.1.resolve_right hpow, hzero.2⟩
    · right
      set v : ℚ := ((a * 10 ^ j + d : Nat) : ℚ) * 10 ^ (e - j) with hv
      have hvpos : 0 < v := by
        have hnum : (0 : ℚ) < (a * 10 ^ j + d : Nat) := by exact_mod_cast Nat.pos_of_ne_zero hzero
        exact mul_pos hnum (zpow_pos (by norm_num) _)
      -- the sign is kept, and so the number is in the range of `long`
      have hlow : -9223372036854775808 ≤ sign * a := by
        by_contra hlt
        rw [longToInt_of_small (by omega)] at h
        rcases hsign with rfl | rfl
        · omega
        · push_cast at h
          linarith
      have hhigh : sign * a ≤ 9223372036854775807 := by
        by_contra hlt
        rw [longToInt_of_large (by omega)] at h
        rcases hsign with rfl | rfl
        · push_cast at h
          linarith
        · omega
      have hint := isInt_intWrap (max (-9223372036854775808) (min (sign * a) 9223372036854775807))
      have hdvd := dvd_longToInt_sub hlow hhigh
      change IsInt (longToInt (sign * a)) at hint
      generalize longToInt (sign * a) = w at h hint hdvd
      obtain ⟨u, hu⟩ : ∃ u : Nat, w = sign * u := by
        have hpos : 0 < (sign * w : ℚ) := by
          rw [h]
          rcases hsign with rfl | rfl
          · simpa using hvpos
          · simpa using hvpos
        have hpos' : 0 < sign * w := by exact_mod_cast hpos
        refine ⟨(sign * w).toNat, ?_⟩
        rcases hsign with rfl | rfl <;> omega
      subst hu
      have hsign0 : (sign : ℚ) ≠ 0 := by rcases hsign with rfl | rfl <;> norm_num
      have hvalue : (u : ℚ) = v := by
        rw [Int.cast_mul, Int.cast_natCast] at h
        exact mul_left_cancel₀ hsign0 h
      have hu : 0 < u := by
        rw [← hvalue] at hvpos
        exact_mod_cast hvpos
      have hmod : (4294967296 : Int) ∣ u - a := by
        rcases hsign with rfl | rfl <;> omega
      have hle : u ≤ 2147483648 := by
        obtain ⟨h1, h2⟩ := hint
        rcases hsign with rfl | rfl <;> omega
      obtain ⟨rfl, rfl, rfl⟩ := eq_of_scaled hd hu hle hmod hvalue
      exact ⟨rfl, rfl, hint⟩
  · rintro (⟨rfl, rfl⟩ | ⟨rfl, rfl, hint⟩)
    · rw [longToInt_eq_self (by simp [IsInt])]
      simp
    · rw [longToInt_eq_self hint, zero_sub, zpow_neg, zpow_natCast, Nat.add_zero]
      push_cast
      rw [mul_assoc, mul_inv_cancel₀ (pow_ne_zero j hten), mul_one]

end CLib
