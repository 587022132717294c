import Lanewise.Proofs.Float.Nearest

/-!
# Rounded magnitudes are not NaNs

Rounding never passes the magnitude bits of an infinity (`round_le_infinityBits`), so a rounded
pattern is a number or an infinity (`isNaN_roundSigned`). A magnitude that is returned as finite
is finite in every format with two exponent bits or more (`round_lt_infinityBits`) : a number
below the least normal reaches the bits of the least normal at most. With a single exponent bit
these are the bits of an infinity.
-/

namespace Lanewise

namespace Format

/-! ## Bounds of a rounded mantissa -/

theorem dropBits_le {mantissa drop n : ℕ} (h : mantissa < n * 2 ^ drop) (sticky : Bool) :
    dropBits mantissa drop sticky ≤ n := by
  have hkept : mantissa / 2 ^ drop < n := Nat.div_lt_of_lt_mul (by rwa [Nat.mul_comm])
  unfold dropBits
  simp only
  split_ifs <;> omega

/-- A number below a power of two does not round to more than this power. -/
theorem toUnit_le {mantissa n : ℕ} {exponent unit : ℤ}
    (h : (mantissa.log2 : ℤ) + exponent < unit + n) (sticky : Bool) :
    toUnit mantissa exponent unit sticky ≤ 2 ^ n := by
  have hlt : mantissa < 2 ^ (mantissa.log2 + 1) := Nat.lt_log2_self
  unfold toUnit
  split_ifs with hle
  · calc mantissa * 2 ^ (exponent - unit).toNat
        ≤ 2 ^ (mantissa.log2 + 1) * 2 ^ (exponent - unit).toNat := Nat.mul_le_mul_right _ hlt.le
      _ = 2 ^ (mantissa.log2 + 1 + (exponent - unit).toNat) := (Nat.pow_add ..).symm
      _ ≤ 2 ^ n := Nat.pow_le_pow_right Nat.two_pos (by omega)
  · refine dropBits_le ?_ sticky
    calc mantissa < 2 ^ (mantissa.log2 + 1) := hlt
      _ ≤ 2 ^ (n + (unit - exponent).toNat) := Nat.pow_le_pow_right Nat.two_pos (by omega)
      _ = 2 ^ n * 2 ^ (unit - exponent).toNat := Nat.pow_add ..

variable {fmt : Format}

/-! ## Bounds of rounded bits -/

/-- Rounded bits are those of a value below the least normal, of the least normal, or finite. -/
theorem round_le_or_lt {mantissa bits : ℕ} {exponent : ℤ} {sticky : Bool}
    (h : fmt.round mantissa exponent sticky = some bits) :
    bits ≤ 2 ^ fmt.mantissaBits ∨ bits < fmt.infinityBits := by
  unfold round at h
  simp only at h
  split_ifs at h with hzero hvanish hsmall hfinite
  · left
    rw [← Option.some.inj h]
    exact Nat.zero_le _
  · left
    rw [← Option.some.inj h]
    exact Nat.zero_le _
  · left
    rw [← Option.some.inj h]
    refine toUnit_le ?_ sticky
    rw [unitExponent]
    omega
  · right
    rwa [← Option.some.inj h]

theorem two_pow_le_infinityBits (fmt : Format) : 2 ^ fmt.mantissaBits ≤ fmt.infinityBits := by
  have htop : 2 ^ 1 ≤ 2 ^ fmt.exponentBits := Nat.pow_le_pow_right Nat.two_pos fmt.exponent_pos
  rw [infinityBits, topExponent]
  exact Nat.le_mul_of_pos_left _ (by omega)

theorem round_le_infinityBits {mantissa bits : ℕ} {exponent : ℤ} {sticky : Bool}
    (h : fmt.round mantissa exponent sticky = some bits) : bits ≤ fmt.infinityBits := by
  have := fmt.two_pow_le_infinityBits
  rcases round_le_or_lt h with hle | hlt
  · exact hle.trans this
  · exact hlt.le

/-- With two exponent bits there is a normal value below the infinity. -/
theorem round_lt_infinityBits (heb : 2 ≤ fmt.exponentBits) {mantissa bits : ℕ} {exponent : ℤ}
    {sticky : Bool} (h : fmt.round mantissa exponent sticky = some bits) :
    bits < fmt.infinityBits := by
  have := two_pow_lt_infinityBits heb
  rcases round_le_or_lt h with hle | hlt
  · exact hle.trans_lt this
  · exact hlt

/-! ## Patterns that are not NaNs -/

theorem isNaN_pattern (negative : Bool) {bits : ℕ} (h : bits ≤ fmt.infinityBits) :
    isNaN (fmt.pattern negative bits) = false := by
  rw [Bool.eq_false_iff, Ne, isNaN_iff, magnitude_pattern negative (h.trans_lt fmt.infinityBits_lt)]
  omega

@[simp] theorem isNaN_zero (negative : Bool) : isNaN (fmt.zero negative) = false :=
  isNaN_pattern negative (Nat.zero_le _)

@[simp] theorem isNaN_infinity (negative : Bool) : isNaN (fmt.infinity negative) = false :=
  isNaN_pattern negative le_rfl

@[simp] theorem isNaN_roundSigned (negative : Bool) (mantissa : ℕ) (exponent : ℤ) (sticky : Bool) :
    isNaN (fmt.roundSigned negative (fmt.round mantissa exponent sticky)) = false := by
  cases h : fmt.round mantissa exponent sticky with
  | none => exact isNaN_infinity negative
  | some bits => exact isNaN_pattern negative (round_le_infinityBits h)

end Format

end Lanewise
