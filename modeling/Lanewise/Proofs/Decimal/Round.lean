import Lanewise.Decimal.Basic
import Lanewise.Proofs.Float.Round

/-!
# Decimals are correctly rounded

`Decimal.round` takes a decimal to the nearest bits of the number it stands for (`round_eq`).
The cases that it settles by the size of the number alone agree : a power of ten is at least
the same power of two, and a number with few digits lies below the power of two of their count.
-/

namespace Lanewise

namespace Decimal

open Format

variable {fmt : Format}

/-- The number that a decimal stands for. -/
def value (d : Decimal) : ℚ :=
  d.digits * 10 ^ d.exponent

theorem value_nonneg (d : Decimal) : 0 ≤ d.value :=
  mul_nonneg (Nat.cast_nonneg _) (zpow_nonneg (by norm_num) _)

/-! ## Powers of ten -/

theorem two_zpow_le_ten_zpow {e : ℤ} (he : 0 ≤ e) : (2 : ℚ) ^ e ≤ 10 ^ e :=
  zpow_le_zpow_left₀ he (by norm_num) (by norm_num)

theorem ten_zpow_le_two_zpow {e : ℤ} (he : e ≤ 0) : (10 : ℚ) ^ e ≤ 2 ^ e := by
  have h := inv_anti₀ (two_zpow_pos (-e)) (two_zpow_le_ten_zpow (Int.neg_nonneg.2 he))
  rwa [zpow_neg, zpow_neg, inv_inv, inv_inv] at h

/-- A power of ten with a positive part and a negative part. -/
theorem ten_zpow_eq_div (e : ℤ) :
    (10 : ℚ) ^ e = ((10 ^ e.toNat : ℕ) : ℚ) / ((10 ^ (-e).toNat : ℕ) : ℚ) := by
  push_cast
  rw [← zpow_natCast, ← zpow_natCast, ← zpow_sub₀ (by norm_num)]
  congr 1
  omega

theorem value_eq_div (d : Decimal) : d.value =
    ((d.digits * 10 ^ d.exponent.toNat : ℕ) : ℚ) / ((10 ^ (-d.exponent).toNat : ℕ) : ℚ) := by
  rw [value, ten_zpow_eq_div, Nat.cast_mul, mul_div_assoc]

/-! ## Rounding -/

/-- A power of ten beyond the format makes any decimal but zero too large. -/
theorem le_value_of_le {d : Decimal} (hd : d.digits ≠ 0)
    (hlarge : (fmt.bias + 1 : ℤ) ≤ d.exponent) : 2 ^ ((fmt.bias : ℤ) + 1) ≤ d.value := by
  have hone : (1 : ℚ) ≤ d.digits := by exact_mod_cast Nat.one_le_iff_ne_zero.2 hd
  calc (2 : ℚ) ^ ((fmt.bias : ℤ) + 1) ≤ 2 ^ d.exponent := two_zpow_le hlarge
    _ ≤ 10 ^ d.exponent := two_zpow_le_ten_zpow (by omega)
    _ ≤ d.digits * 10 ^ d.exponent := le_mul_of_one_le_left (zpow_nonneg (by norm_num) _) hone

/-- A decimal with few digits far behind the point is below half of the least subnormal. -/
theorem value_le_of_le {d : Decimal}
    (hsmall : d.digits.log2 + 1 + d.exponent ≤ fmt.unitExponent - 1) :
    d.value ≤ 2 ^ (fmt.unitExponent - 1) := by
  have hunit := unitExponent_nonpos fmt
  have hdigits : (d.digits : ℚ) ≤ 2 ^ ((d.digits.log2 + 1 : ℕ) : ℤ) := by
    rw [zpow_natCast]
    exact_mod_cast Nat.lt_log2_self.le
  calc d.digits * (10 : ℚ) ^ d.exponent
      ≤ 2 ^ ((d.digits.log2 + 1 : ℕ) : ℤ) * 2 ^ d.exponent :=
        mul_le_mul hdigits (ten_zpow_le_two_zpow (by omega)) (zpow_nonneg (by norm_num) _)
          (two_zpow_pos _).le
    _ ≤ 2 ^ (fmt.unitExponent - 1) := by
        rw [← two_zpow_add]
        exact two_zpow_le (by push_cast; omega)

/-- A decimal is rounded to the nearest bits, unless they are those of an infinity. -/
theorem round_eq (heb : 2 ≤ fmt.exponentBits) (d : Decimal) :
    d.round fmt = if fmt.nearestBits d.value < fmt.infinityBits then
      some (fmt.nearestBits d.value) else none := by
  have hinf := (Nat.zero_le _).trans_lt (two_pow_lt_infinityBits heb)
  have hvanish : d.value ≤ 2 ^ (fmt.unitExponent - 1) → fmt.nearestBits d.value = 0 :=
    nearestBits_eq_zero d.value_nonneg
  rw [round]
  by_cases hzero : d.digits = 0
  · have hvalue : d.value = 0 := by rw [value, hzero, Nat.cast_zero, zero_mul]
    rw [if_pos hzero, hvanish (hvalue.le.trans (two_zpow_pos _).le), if_pos hinf]
  rw [if_neg hzero]
  by_cases hlarge : (fmt.bias + 1 : ℤ) ≤ d.exponent
  · rw [if_pos hlarge, if_neg (not_lt.2 (infinityBits_le_of_le heb (le_value_of_le hzero hlarge)))]
  rw [if_neg hlarge]
  by_cases hsmall : d.digits.log2 + 1 + d.exponent ≤ fmt.unitExponent - 1
  · rw [if_pos hsmall, hvanish (value_le_of_le hsmall), if_pos hinf]
  · rw [if_neg hsmall, roundRatio_eq (K := ℚ) heb _ (Nat.pow_pos (by decide)), ← value_eq_div]

end Decimal

end Lanewise
