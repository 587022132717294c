import Mathlib.Order.Monotone.Basic
import Mathlib.Tactic.Ring
import Lanewise.Float.Format

/-!
# Magnitude bits

A pattern is a sign bit in front of its magnitude bits (`toNat_pattern`,
`pattern_magnitude`). The units that magnitude bits stand for grow with the bits
(`strictMono_magnitudeUnits`), so the order of finite magnitudes is the order of their bits. The
bits of an infinity come after the finite ones, and the NaNs after these (`isInfinite_iff`,
`isNaN_iff`).

Bits are also written as a `field` that counts doublings of the unit and a `significand` with
its hidden bit : `field * 2 ^ mantissaBits + significand` stands for `significand * 2 ^ field`
units (`magnitudeUnits_field`). A significand may be one step too large; its carry is the
encoding of the next field.
-/

namespace Lanewise

namespace Format

/-! ## Units of magnitude bits -/

/-- The multiple of the least subnormal that magnitude bits stand for. -/
def magnitudeUnits (fmt : Format) (bits : ℕ) : ℕ :=
  if bits / 2 ^ fmt.mantissaBits = 0 then bits % 2 ^ fmt.mantissaBits
  else (2 ^ fmt.mantissaBits + bits % 2 ^ fmt.mantissaBits) *
    2 ^ (bits / 2 ^ fmt.mantissaBits - 1)

variable {fmt : Format}

theorem exponent_eq (x : fmt.Pattern) : exponent x = magnitude x / 2 ^ fmt.mantissaBits := by
  rw [exponent, magnitude, Nat.add_comm, Nat.pow_add, Nat.mod_mul_right_div_self]

theorem mantissa_eq (x : fmt.Pattern) : mantissa x = magnitude x % 2 ^ fmt.mantissaBits := by
  rw [mantissa, magnitude, Nat.add_comm, Nat.pow_add, Nat.mod_mul_right_mod]

theorem units_eq_magnitudeUnits (x : fmt.Pattern) :
    units x = fmt.magnitudeUnits (magnitude x) := by
  rw [units, magnitudeUnits, ← exponent_eq, ← mantissa_eq]

theorem magnitudeUnits_field {field significand : ℕ}
    (hnormal : field = 0 ∨ 2 ^ fmt.mantissaBits ≤ significand)
    (hle : significand ≤ 2 ^ (fmt.mantissaBits + 1)) :
    fmt.magnitudeUnits (field * 2 ^ fmt.mantissaBits + significand) =
      significand * 2 ^ field := by
  obtain ⟨one, hone⟩ : ∃ one, one = 2 ^ fmt.mantissaBits := ⟨_, rfl⟩
  have hpos : 0 < one := by rw [hone]; exact Nat.two_pow_pos _
  rw [Nat.pow_succ, ← hone] at hle
  rw [magnitudeUnits, ← hone]
  rw [← hone] at hnormal
  rcases Nat.lt_or_ge significand one with hlt | hge
  · obtain rfl : field = 0 := by omega
    simp [Nat.div_eq_of_lt hlt, Nat.mod_eq_of_lt hlt]
  · rcases hle.lt_or_eq with hlt | rfl
    · -- A significand with its hidden bit raises the field by one.
      obtain ⟨low, rfl⟩ : ∃ low, significand = one + low := ⟨significand - one, by omega⟩
      have hbits : field * one + (one + low) = low + one * (field + 1) := by ring
      rw [hbits, Nat.add_mul_div_left _ _ hpos, Nat.add_mul_mod_self_left,
        Nat.div_eq_of_lt (by omega), Nat.mod_eq_of_lt (by omega), if_neg (by omega)]
      simp
    · have hbits : field * one + one * 2 = one * (field + 2) := by ring
      rw [hbits, Nat.mul_div_cancel_left _ hpos, Nat.mul_mod_right, if_neg (by omega),
        Nat.add_zero, Nat.add_sub_assoc (by decide), Nat.pow_succ]
      ring

/-- All magnitude bits are a field and a significand. -/
theorem exists_field (fmt : Format) (bits : ℕ) :
    ∃ field significand, bits = field * 2 ^ fmt.mantissaBits + significand ∧
      (field = 0 ∨ 2 ^ fmt.mantissaBits ≤ significand) ∧
      significand < 2 ^ (fmt.mantissaBits + 1) := by
  obtain ⟨one, hone⟩ : ∃ one, one = 2 ^ fmt.mantissaBits := ⟨_, rfl⟩
  have hpos : 0 < one := by rw [hone]; exact Nat.two_pow_pos _
  rw [Nat.pow_succ, ← hone]
  have hsplit := Nat.div_add_mod' bits one
  have hlow := Nat.mod_lt bits hpos
  by_cases hzero : bits / one = 0
  · exact ⟨0, bits, by omega, Or.inl rfl, by rw [hzero] at hsplit; omega⟩
  · obtain ⟨field, hfield⟩ := Nat.exists_eq_succ_of_ne_zero hzero
    rw [hfield, Nat.succ_mul] at hsplit
    exact ⟨field, one + bits % one, by omega, Or.inr (by omega), by omega⟩

theorem strictMono_magnitudeUnits (fmt : Format) : StrictMono fmt.magnitudeUnits := by
  refine strictMono_nat_of_lt_succ fun bits => ?_
  obtain ⟨field, significand, rfl, hnormal, hlt⟩ := fmt.exists_field bits
  rw [Nat.add_assoc, magnitudeUnits_field hnormal hlt.le,
    magnitudeUnits_field (hnormal.imp_right Nat.le_succ_of_le) hlt]
  exact Nat.mul_lt_mul_of_pos_right (Nat.lt_succ_self _) (Nat.two_pow_pos _)

/-! ## Patterns -/

/-- The bits of an infinity are followed by those of the NaNs, one for each payload. -/
theorem infinityBits_add (fmt : Format) :
    fmt.infinityBits + 2 ^ fmt.mantissaBits = 2 ^ (fmt.exponentBits + fmt.mantissaBits) := by
  rw [infinityBits, topExponent, ← Nat.succ_mul, Nat.succ_eq_add_one,
    Nat.sub_add_cancel (Nat.two_pow_pos _), Nat.pow_add]

theorem infinityBits_lt (fmt : Format) :
    fmt.infinityBits < 2 ^ (fmt.exponentBits + fmt.mantissaBits) := by
  rw [← infinityBits_add]
  exact Nat.lt_add_of_pos_right (Nat.two_pow_pos _)

theorem mod_infinityBits_add {payload : ℕ} (h : payload < 2 ^ fmt.mantissaBits) :
    (fmt.infinityBits + payload) % 2 ^ fmt.mantissaBits = payload := by
  rw [infinityBits, Nat.mul_add_mod_self_right, Nat.mod_eq_of_lt h]

/-- The greatest finite exponent is bounded by the exponent bits. -/
theorem bias_lt {n : ℕ} (h : fmt.exponentBits ≤ n + 1) : fmt.bias < 2 ^ n := by
  have hle : 2 ^ (fmt.exponentBits - 1) ≤ 2 ^ n := Nat.pow_le_pow_right Nat.two_pos (by omega)
  have hpos := Nat.two_pow_pos (fmt.exponentBits - 1)
  rw [bias]
  omega

theorem two_pow_width (fmt : Format) :
    2 ^ fmt.width = 2 * 2 ^ (fmt.exponentBits + fmt.mantissaBits) := by
  rw [width, Nat.add_assoc, Nat.pow_add, Nat.pow_one]

theorem toNat_pattern (negative : Bool) {bits : ℕ}
    (h : bits < 2 ^ (fmt.exponentBits + fmt.mantissaBits)) :
    (fmt.pattern negative bits).toNat =
      (if negative then 2 ^ (fmt.exponentBits + fmt.mantissaBits) else 0) + bits := by
  have hwidth := fmt.two_pow_width
  rw [pattern, BitVec.toNat_or, BitVec.toNat_ofNat, Nat.mod_eq_of_lt (by omega)]
  cases negative
  · simp
  · have hor := Nat.two_pow_add_eq_or_of_lt h 1
    rw [Nat.mul_one] at hor
    simp only [if_true]
    rw [signBit, BitVec.toNat_ofNat, Nat.mod_eq_of_lt (by omega), hor]

theorem magnitude_pattern (negative : Bool) {bits : ℕ}
    (h : bits < 2 ^ (fmt.exponentBits + fmt.mantissaBits)) :
    magnitude (fmt.pattern negative bits) = bits := by
  rw [magnitude, toNat_pattern negative h]
  cases negative
  · simp [Nat.mod_eq_of_lt h]
  · simp [Nat.mod_eq_of_lt h]

theorem isNegative_iff (x : fmt.Pattern) :
    isNegative x = true ↔ 2 ^ (fmt.exponentBits + fmt.mantissaBits) ≤ x.toNat := by
  rw [isNegative, BitVec.msb_eq_decide, decide_eq_true_iff]
  have hexp : fmt.width - 1 = fmt.exponentBits + fmt.mantissaBits := by
    rw [width]
    omega
  rw [hexp]

theorem isNegative_pattern (negative : Bool) {bits : ℕ}
    (h : bits < 2 ^ (fmt.exponentBits + fmt.mantissaBits)) :
    isNegative (fmt.pattern negative bits) = negative := by
  rw [Bool.eq_iff_iff, isNegative_iff, toNat_pattern negative h]
  cases negative
  · simpa using h
  · simp

theorem magnitude_lt (x : fmt.Pattern) :
    magnitude x < 2 ^ (fmt.exponentBits + fmt.mantissaBits) :=
  Nat.mod_lt _ (Nat.two_pow_pos _)

/-- A pattern is its sign in front of its magnitude bits. -/
theorem pattern_magnitude (x : fmt.Pattern) : fmt.pattern (isNegative x) (magnitude x) = x := by
  apply BitVec.eq_of_toNat_eq
  rw [toNat_pattern _ (magnitude_lt x)]
  have hlt := x.isLt
  rw [two_pow_width] at hlt
  rw [magnitude]
  by_cases h : isNegative x = true
  · have hle := (isNegative_iff x).1 h
    rw [if_pos h, Nat.mod_eq_sub_mod hle, Nat.mod_eq_of_lt (by omega)]
    omega
  · have hlt' : x.toNat < 2 ^ (fmt.exponentBits + fmt.mantissaBits) := by
      rw [isNegative_iff] at h
      omega
    rw [if_neg h, Nat.mod_eq_of_lt hlt', Nat.zero_add]

/-- The patterns with an exponent field below the field of infinities and NaNs. -/
def IsFinite (x : fmt.Pattern) : Prop :=
  exponent x ≠ fmt.topExponent

theorem isFinite_iff (x : fmt.Pattern) : IsFinite x ↔ magnitude x < fmt.infinityBits := by
  have hlt := magnitude_lt x
  rw [Nat.pow_add, ← Nat.div_lt_iff_lt_mul (Nat.two_pow_pos _)] at hlt
  rw [IsFinite, exponent_eq, infinityBits, ← Nat.div_lt_iff_lt_mul (Nat.two_pow_pos _), topExponent]
  omega

/-! ## Classes -/

theorem magnitude_eq (x : fmt.Pattern) :
    magnitude x = exponent x * 2 ^ fmt.mantissaBits + mantissa x := by
  rw [exponent_eq, mantissa_eq, Nat.div_add_mod']

theorem magnitude_of_isNaN {x : fmt.Pattern} (h : isNaN x = true) :
    magnitude x = fmt.infinityBits + mantissa x ∧ mantissa x ≠ 0 := by
  rw [isNaN, decide_eq_true_eq] at h
  exact ⟨by rw [magnitude_eq, h.1, infinityBits], h.2⟩

theorem magnitude_of_isInfinite {x : fmt.Pattern} (h : isInfinite x = true) :
    magnitude x = fmt.infinityBits := by
  rw [isInfinite, decide_eq_true_eq] at h
  rw [magnitude_eq, h.1, h.2, infinityBits, Nat.add_zero]

theorem magnitude_of_units_eq_zero {x : fmt.Pattern} (h : units x = 0) : magnitude x = 0 := by
  by_contra hne
  have hlt := fmt.strictMono_magnitudeUnits (Nat.pos_of_ne_zero hne)
  rw [units_eq_magnitudeUnits] at h
  omega

theorem magnitude_lt_of_finite {x : fmt.Pattern} (hnan : ¬isNaN x = true)
    (hinf : ¬isInfinite x = true) : magnitude x < fmt.infinityBits := by
  rw [isNaN, decide_eq_true_eq] at hnan
  rw [isInfinite, decide_eq_true_eq] at hinf
  rw [← isFinite_iff]
  exact fun htop => (em (mantissa x = 0)).elim (fun h => hinf ⟨htop, h⟩) fun h => hnan ⟨htop, h⟩

/-- The NaNs are the patterns beyond the infinities. -/
theorem isNaN_iff (x : fmt.Pattern) : isNaN x = true ↔ fmt.infinityBits < magnitude x := by
  constructor
  · intro h
    obtain ⟨hmag, hne⟩ := magnitude_of_isNaN h
    omega
  · intro h
    by_contra hnan
    by_cases hinf : isInfinite x = true
    · have := magnitude_of_isInfinite hinf
      omega
    · have := magnitude_lt_of_finite hnan hinf
      omega

theorem isInfinite_iff (x : fmt.Pattern) :
    isInfinite x = true ↔ magnitude x = fmt.infinityBits := by
  refine ⟨magnitude_of_isInfinite, fun h => ?_⟩
  by_contra hinf
  have hnan : ¬isNaN x = true := by
    rw [isNaN_iff]
    omega
  have := magnitude_lt_of_finite hnan hinf
  omega

theorem units_eq_zero_iff (x : fmt.Pattern) : units x = 0 ↔ magnitude x = 0 := by
  refine ⟨magnitude_of_units_eq_zero, fun h => ?_⟩
  rw [units_eq_magnitudeUnits, h]
  simp [magnitudeUnits]

end Format

end Lanewise
