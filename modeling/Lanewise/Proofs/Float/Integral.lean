import Lanewise.Proofs.Float.Negation
import Lanewise.Proofs.Float.Round

/-!
# Rounding to an integer

A number is an integer if its units are a multiple of `unitsOfOne`, the units that make up one. The
integer that a mode chooses (`wholeNear`) is at most one more than the whole part, and up to
`2 ^ mantissaBits` every integer is a number on some grid (`exists_magnitudeUnits_eq`), while from
there on all numbers are integers (`dvd_units_or_lt`). So the rounding after the choice has nothing
to do (`round_magnitudeUnits`) : the result has the sign of the number and the units of the integer
that was chosen (`integral_of_isFinite`).

What follows is read off the sign and the units. A negated number is rounded in the dual mode
(`integral_neg`), truncation is floor or ceiling by the sign (`integral_trunc`), and a result is an
integer, which no mode changes (`integral_integral`). The one assumption on the format is that the
mantissa ends within the exponent range, `mantissaBits ≤ bias`.
-/

namespace Lanewise

namespace Format

variable {fmt : Format} {x y : fmt.Pattern}

/-! ## Integers among the values -/

/-- The number that a pattern stands for. -/
def rational (x : fmt.Pattern) : ℚ :=
  Datum.signed (isNegative x) (units x) * 2 ^ fmt.unitExponent

/-- A finite number without a fraction. -/
def IsIntegral (x : fmt.Pattern) : Prop :=
  IsFinite x ∧ ∃ n : ℤ, rational x = n

theorem unitsOfOne_pos (fmt : Format) : 0 < fmt.unitsOfOne :=
  Nat.two_pow_pos _

theorem two_zpow_unitExponent (fmt : Format) : (2 : ℚ) ^ fmt.unitExponent = 1 / fmt.unitsOfOne := by
  have hneg := fmt.unitExponent_nonpos
  rw [unitsOfOne, Nat.cast_pow, Nat.cast_ofNat, ← zpow_natCast, Int.toNat_of_nonneg (by omega),
    zpow_neg, one_div, inv_inv]

/-- A significand of the ordinary size, on any grid, is the units of some bits. -/
theorem exists_magnitudeUnits_eq (fmt : Format) {k : ℕ} (hk : k ≤ 2 ^ (fmt.mantissaBits + 1))
    (p : ℕ) : ∃ bits, fmt.magnitudeUnits bits = k * 2 ^ p := by
  induction p generalizing k with
  | zero => exact ⟨0 * 2 ^ fmt.mantissaBits + k, magnitudeUnits_field (Or.inl rfl) hk⟩
  | succ p ih =>
    rcases Nat.lt_or_ge k (2 ^ fmt.mantissaBits) with hlt | hge
    · have hdouble : 2 * k ≤ 2 ^ (fmt.mantissaBits + 1) := by
        rw [Nat.pow_succ]
        omega
      obtain ⟨bits, hbits⟩ := ih hdouble
      exact ⟨bits, by rw [hbits, Nat.pow_succ']; ring⟩
    · exact ⟨(p + 1) * 2 ^ fmt.mantissaBits + k, magnitudeUnits_field (Or.inr hge) hk⟩

/-- From `2 ^ mantissaBits` on, all numbers are integers. -/
theorem dvd_units_or_lt (x : fmt.Pattern) :
    fmt.unitsOfOne ∣ units x ∨ units x < 2 ^ fmt.mantissaBits * fmt.unitsOfOne := by
  obtain ⟨field, significand, hbits, hnormal, hlt⟩ := fmt.exists_field (magnitude x)
  rw [units_eq_magnitudeUnits, hbits, magnitudeUnits_field hnormal hlt.le, unitsOfOne]
  obtain ⟨p, hp⟩ : ∃ p, p = (-fmt.unitExponent).toNat := ⟨_, rfl⟩
  rw [← hp]
  rcases Nat.lt_or_ge field p with hfield | hfield
  · right
    calc significand * 2 ^ field < 2 ^ (fmt.mantissaBits + 1) * 2 ^ field :=
          Nat.mul_lt_mul_of_pos_right hlt (Nat.two_pow_pos _)
      _ = 2 ^ fmt.mantissaBits * 2 ^ (field + 1) := by rw [Nat.pow_succ, Nat.pow_succ]; ring
      _ ≤ 2 ^ fmt.mantissaBits * 2 ^ p :=
          Nat.mul_le_mul_left _ (Nat.pow_le_pow_right Nat.two_pos hfield)
  · exact Or.inl (Dvd.dvd.mul_left (Nat.pow_dvd_pow 2 hfield) _)

/-- The first integers from which on all numbers are integers are finite. -/
theorem mul_unitsOfOne_lt (hbias : fmt.mantissaBits ≤ fmt.bias) :
    2 ^ fmt.mantissaBits * fmt.unitsOfOne < fmt.magnitudeUnits fmt.infinityBits := by
  have hpos := fmt.mantissa_pos
  have hfield : fmt.infinityBits = 2 * fmt.bias * 2 ^ fmt.mantissaBits + 2 ^ fmt.mantissaBits := by
    rw [infinityBits, topExponent_eq, Nat.succ_mul]
  rw [hfield, magnitudeUnits_field (Or.inr le_rfl) (Nat.pow_le_pow_right Nat.two_pos (by omega)),
    unitsOfOne]
  refine Nat.mul_lt_mul_of_pos_left (Nat.pow_lt_pow_right Nat.one_lt_two ?_) (Nat.two_pow_pos _)
  rw [unitExponent, minExponent]
  omega

/-- A pattern is told by its sign and its units. -/
theorem ext_units (hsign : isNegative x = isNegative y) (hunits : units x = units y) : x = y := by
  rw [units_eq_magnitudeUnits, units_eq_magnitudeUnits] at hunits
  exact ext_magnitude hsign (fmt.strictMono_magnitudeUnits.injective hunits)

/-- The units of finite bits are rounded to these bits. -/
theorem round_magnitudeUnits (heb : 2 ≤ fmt.exponentBits) {bits : ℕ} (h : bits < fmt.infinityBits) :
    fmt.round (fmt.magnitudeUnits bits) fmt.unitExponent false = some bits := by
  have henclosed : EnclosedBy (fmt.bitsValue ℚ bits / 2 ^ fmt.unitExponent)
      (fmt.magnitudeUnits bits) false := by
    have hquot : fmt.bitsValue ℚ bits / 2 ^ fmt.unitExponent = fmt.magnitudeUnits bits := by
      rw [bitsValue, mul_div_cancel_right₀ _ (two_zpow_pos _).ne']
    rw [hquot]
    exact ⟨le_rfl, lt_add_one _, by simp⟩
  rw [round_eq heb henclosed (by simp), nearestBits_bitsValue, if_pos h]

/-! ## The integer that is chosen -/

/-- The magnitude of the integer near a number of units. -/
def wholeNear (fmt : Format) (mode : IntegralMode) (negative : Bool) (m : ℕ) : ℕ :=
  if mode.awayFromZero negative (m / fmt.unitsOfOne) (m % fmt.unitsOfOne) fmt.unitsOfOne then
    m / fmt.unitsOfOne + 1
  else m / fmt.unitsOfOne

theorem integralUnits_eq (mode : IntegralMode) (negative : Bool) (m : ℕ) :
    integralUnits fmt mode negative m = wholeNear fmt mode negative m * fmt.unitsOfOne :=
  rfl

/-- Without a fraction there is nothing to round. -/
theorem IntegralMode.awayFromZero_zero (mode : IntegralMode) (negative : Bool) (whole : ℕ) {one : ℕ}
    (h : 0 < one) : mode.awayFromZero negative whole 0 one = false := by
  cases mode <;> simp [awayFromZero, h.ne]

theorem wholeNear_of_dvd {m : ℕ} (h : fmt.unitsOfOne ∣ m) (mode : IntegralMode) (negative : Bool) :
    wholeNear fmt mode negative m = m / fmt.unitsOfOne := by
  rw [wholeNear, Nat.mod_eq_zero_of_dvd h, mode.awayFromZero_zero negative _ fmt.unitsOfOne_pos]
  rfl

theorem wholeNear_le (mode : IntegralMode) (negative : Bool) (m : ℕ) :
    wholeNear fmt mode negative m ≤ m / fmt.unitsOfOne + 1 := by
  unfold wholeNear
  split_ifs <;> omega

/-- The integer near a finite number is finite. -/
theorem exists_integralBits (hbias : fmt.mantissaBits ≤ fmt.bias) (mode : IntegralMode)
    (hx : IsFinite x) : ∃ bits < fmt.infinityBits,
      fmt.magnitudeUnits bits = wholeNear fmt mode (isNegative x) (units x) * fmt.unitsOfOne := by
  rcases dvd_units_or_lt x with hdvd | hlt
  · refine ⟨magnitude x, (isFinite_iff x).1 hx, ?_⟩
    rw [wholeNear_of_dvd hdvd, Nat.div_mul_cancel hdvd, units_eq_magnitudeUnits]
  · have hwhole : wholeNear fmt mode (isNegative x) (units x) ≤ 2 ^ fmt.mantissaBits :=
      (wholeNear_le _ _ _).trans ((Nat.div_lt_iff_lt_mul fmt.unitsOfOne_pos).2 hlt)
    obtain ⟨bits, hbits⟩ := fmt.exists_magnitudeUnits_eq
      (hwhole.trans (Nat.pow_le_pow_right Nat.two_pos (Nat.le_succ _))) (-fmt.unitExponent).toNat
    refine ⟨bits, ?_, hbits⟩
    rw [← fmt.strictMono_magnitudeUnits.lt_iff_lt, hbits]
    exact (Nat.mul_le_mul_right _ hwhole).trans_lt (mul_unitsOfOne_lt hbias)

/-! ## Results -/

theorem isNaN_eq_false_of_isFinite (h : IsFinite x) : isNaN x = false := by
  have hlt := (isFinite_iff x).1 h
  rw [Bool.eq_false_iff, Ne, isNaN_iff]
  omega

theorem isInfinite_eq_false_of_isFinite (h : IsFinite x) : isInfinite x = false := by
  have hlt := (isFinite_iff x).1 h
  rw [Bool.eq_false_iff, Ne, isInfinite_iff]
  omega

theorem class_cases (x : fmt.Pattern) : isNaN x = true ∨ isInfinite x = true ∨ IsFinite x := by
  rw [isNaN_iff, isInfinite_iff, isFinite_iff]
  omega

theorem integral_of_isNaN (h : isNaN x = true) (mode : IntegralMode) :
    integral mode x = quiet x := by
  have hdatum : datum x = .nan := by simp [datum, h]
  rw [integral, integral?, hdatum]
  exact nanOf_of_find? (List.find?_cons_of_pos h)

theorem integral_of_isInfinite (h : isInfinite x = true) (mode : IntegralMode) :
    integral mode x = x := by
  have hdatum : datum x = .infinite (isNegative x) := by
    simp [datum, isNaN_eq_false_of_isInfinite h, h]
  rw [integral, integral?, hdatum, settle, Option.getD_some, infinity, ← magnitude_of_isInfinite h,
    pattern_magnitude]

section

variable (hbias : fmt.mantissaBits ≤ fmt.bias)

include hbias

theorem two_le_exponentBits : 2 ≤ fmt.exponentBits := by
  have hmb := fmt.mantissa_pos
  have heb := fmt.exponent_pos
  by_contra hlt
  have hone : fmt.exponentBits - 1 = 0 := by omega
  rw [bias, hone] at hbias
  omega

/-- A finite number keeps its sign and becomes the integer that is chosen. -/
theorem integral_of_isFinite (mode : IntegralMode) (hx : IsFinite x) :
    IsFinite (integral mode x) ∧ isNegative (integral mode x) = isNegative x ∧
      units (integral mode x) =
        wholeNear fmt mode (isNegative x) (units x) * fmt.unitsOfOne := by
  obtain ⟨bits, hlt, hunits⟩ := exists_integralBits hbias mode hx
  have hround := round_magnitudeUnits (two_le_exponentBits hbias) hlt
  rw [hunits, ← integralUnits_eq] at hround
  have hdatum : datum x = .finite (isNegative x) (units x) := by
    simp [datum, isNaN_eq_false_of_isFinite hx, isInfinite_eq_false_of_isFinite hx]
  have hpattern : integral mode x = fmt.pattern (isNegative x) bits := by
    rw [integral, integral?, hdatum, settle]
    simp only [hround]
    rfl
  have hfits := hlt.trans fmt.infinityBits_lt
  rw [hpattern, isFinite_iff, isNegative_pattern _ hfits, units_eq_magnitudeUnits,
    magnitude_pattern _ hfits]
  exact ⟨hlt, rfl, hunits⟩

/-- Modes that choose the same integer have the same result. -/
theorem integral_congr {mode mode' : IntegralMode} (hx : IsFinite x)
    (h : wholeNear fmt mode (isNegative x) (units x) =
      wholeNear fmt mode' (isNegative x) (units x)) : integral mode x = integral mode' x := by
  obtain ⟨-, hsign, hunits⟩ := integral_of_isFinite hbias mode hx
  obtain ⟨-, hsign', hunits'⟩ := integral_of_isFinite hbias mode' hx
  exact ext_units (hsign.trans hsign'.symm) (by rw [hunits, hunits', h])

end

/-! ## Signs -/

/-- The mode that does to negative numbers what a mode does to positive ones. -/
def IntegralMode.dual : IntegralMode → IntegralMode
  | ceil => floor
  | floor => ceil
  | trunc => trunc
  | nearest => nearest

theorem wholeNear_not (mode : IntegralMode) (negative : Bool) (m : ℕ) :
    wholeNear fmt mode (!negative) m = wholeNear fmt mode.dual negative m := by
  have haway (whole part one : ℕ) : mode.awayFromZero (!negative) whole part one =
      mode.dual.awayFromZero negative whole part one := by
    cases mode <;> cases negative <;> rfl
  rw [wholeNear, haway, wholeNear]

theorem units_neg (x : fmt.Pattern) : units (neg x) = units x := by
  rw [units_eq_magnitudeUnits, magnitude_neg, units_eq_magnitudeUnits]

theorem isInfinite_neg (x : fmt.Pattern) : isInfinite (neg x) = isInfinite x := by
  rw [Bool.eq_iff_iff, isInfinite_iff, isInfinite_iff, magnitude_neg]

theorem isFinite_neg (x : fmt.Pattern) : IsFinite (neg x) ↔ IsFinite x := by
  rw [isFinite_iff, isFinite_iff, magnitude_neg]

theorem isNegative_quiet (x : fmt.Pattern) : isNegative (quiet x) = isNegative x := by
  have hpos := fmt.mantissa_pos
  have hne : ¬fmt.width - 1 = fmt.mantissaBits - 1 := by
    rw [width]
    omega
  rw [isNegative, isNegative, BitVec.msb_eq_getLsbD_last, BitVec.msb_eq_getLsbD_last, getLsbD_quiet,
    decide_eq_false hne, Bool.or_false]

section

variable (hbias : fmt.mantissaBits ≤ fmt.bias)

include hbias

/-- A negated number is rounded the other way around. -/
theorem integral_neg (mode : IntegralMode) (x : fmt.Pattern) :
    integral mode (neg x) = neg (integral mode.dual x) := by
  rcases class_cases x with hnan | hinf | hfin
  · rw [integral_of_isNaN ((isNaN_neg x).trans hnan), integral_of_isNaN hnan, quiet_neg]
  · rw [integral_of_isInfinite ((isInfinite_neg x).trans hinf), integral_of_isInfinite hinf]
  · obtain ⟨-, hsign, hunits⟩ := integral_of_isFinite hbias mode.dual hfin
    obtain ⟨-, hsign', hunits'⟩ := integral_of_isFinite hbias mode ((isFinite_neg x).2 hfin)
    refine ext_units ?_ ?_
    · rw [hsign', isNegative_neg, isNegative_neg, hsign]
    · rw [hunits', units_neg, units_neg, hunits, isNegative_neg, wholeNear_not]

theorem integral_eq_neg (mode : IntegralMode) (x : fmt.Pattern) :
    integral mode x = neg (integral mode.dual (neg x)) := by
  rw [integral_neg hbias, Format.neg_neg]
  cases mode <;> rfl

/-- Toward zero is down for positive numbers and up for negative ones. -/
theorem integral_trunc (x : fmt.Pattern) : integral .trunc x =
    if isNegative x then integral .ceil x else integral .floor x := by
  rcases class_cases x with hnan | hinf | hfin
  · rw [integral_of_isNaN hnan, integral_of_isNaN hnan, integral_of_isNaN hnan, ite_self]
  · rw [integral_of_isInfinite hinf, integral_of_isInfinite hinf, integral_of_isInfinite hinf,
      ite_self]
  · cases hsign : isNegative x with
    | false =>
      refine integral_congr hbias hfin ?_
      rw [hsign]
      rfl
    | true =>
      refine integral_congr hbias hfin ?_
      rw [hsign]
      rfl

theorem isNegative_integral (mode : IntegralMode) (x : fmt.Pattern) :
    isNegative (integral mode x) = isNegative x := by
  rcases class_cases x with hnan | hinf | hfin
  · rw [integral_of_isNaN hnan, isNegative_quiet]
  · rw [integral_of_isInfinite hinf]
  · exact (integral_of_isFinite hbias mode hfin).2.1

end

/-! ## Integers -/

theorem rational_eq (x : fmt.Pattern) :
    rational x = Datum.signed (isNegative x) (units x) / fmt.unitsOfOne := by
  rw [rational, two_zpow_unitExponent, mul_one_div]

theorem rational_neg (x : fmt.Pattern) : rational (neg x) = -rational x := by
  rw [rational_eq, rational_eq, isNegative_neg, units_neg]
  cases isNegative x <;> simp [Datum.signed, neg_div]

theorem rational_of_units {k : ℕ} (h : units x = k * fmt.unitsOfOne) :
    rational x = Datum.signed (isNegative x) k := by
  have hone : (fmt.unitsOfOne : ℚ) ≠ 0 := by exact_mod_cast fmt.unitsOfOne_pos.ne'
  rw [rational_eq, h, div_eq_iff hone]
  unfold Datum.signed
  split_ifs <;> push_cast <;> ring

theorem eq_zero_of_rational (h : rational x = 0) : x = fmt.zero (isNegative x) := by
  have hone : (fmt.unitsOfOne : ℚ) ≠ 0 := by exact_mod_cast fmt.unitsOfOne_pos.ne'
  rw [rational_eq, div_eq_zero_iff, or_iff_left hone, Int.cast_eq_zero] at h
  have hunits : units x = 0 := by
    unfold Datum.signed at h
    split_ifs at h <;> omega
  rw [zero, ← (units_eq_zero_iff x).1 hunits, pattern_magnitude]

theorem isIntegral_iff (x : fmt.Pattern) :
    IsIntegral x ↔ IsFinite x ∧ fmt.unitsOfOne ∣ units x := by
  have hone : (fmt.unitsOfOne : ℚ) ≠ 0 := by exact_mod_cast fmt.unitsOfOne_pos.ne'
  refine and_congr_right fun _ => ⟨?_, ?_⟩
  · rintro ⟨n, hn⟩
    rw [rational_eq, div_eq_iff hone] at hn
    have hsigned : Datum.signed (isNegative x) (units x) = n * fmt.unitsOfOne := by
      exact_mod_cast hn
    have hdvd : (fmt.unitsOfOne : ℤ) ∣ Datum.signed (isNegative x) (units x) :=
      ⟨n, by rw [hsigned, mul_comm]⟩
    unfold Datum.signed at hdvd
    split_ifs at hdvd
    · exact Int.natCast_dvd_natCast.1 ((Int.dvd_neg).1 hdvd)
    · exact Int.natCast_dvd_natCast.1 hdvd
  · rintro ⟨k, hk⟩
    exact ⟨_, rational_of_units (hk.trans (Nat.mul_comm _ _))⟩

section

variable (hbias : fmt.mantissaBits ≤ fmt.bias)

include hbias

theorem isIntegral_integral (mode : IntegralMode) (hx : IsFinite x) :
    IsIntegral (integral mode x) := by
  obtain ⟨hfinite, -, hunits⟩ := integral_of_isFinite hbias mode hx
  exact (isIntegral_iff _).2 ⟨hfinite, _, hunits.trans (Nat.mul_comm _ _)⟩

theorem isInfinite_or_isIntegral (mode : IntegralMode) (hx : isNaN x = false) :
    isInfinite (integral mode x) = true ∨ IsIntegral (integral mode x) := by
  rcases class_cases x with hnan | hinf | hfin
  · exact absurd hnan (by simp [hx])
  · rw [integral_of_isInfinite hinf]
    exact Or.inl hinf
  · exact Or.inr (isIntegral_integral hbias mode hfin)

theorem isNaN_integral (mode : IntegralMode) (hx : isNaN x = false) :
    isNaN (integral mode x) = false := by
  rcases isInfinite_or_isIntegral hbias mode hx with hinf | ⟨hfin, -⟩
  · exact isNaN_eq_false_of_isInfinite hinf
  · exact isNaN_eq_false_of_isFinite hfin

theorem integral_of_isIntegral (mode : IntegralMode) (hx : IsIntegral x) :
    integral mode x = x := by
  obtain ⟨hfinite, hdvd⟩ := (isIntegral_iff x).1 hx
  obtain ⟨-, hsign, hunits⟩ := integral_of_isFinite hbias mode hfinite
  refine ext_units hsign ?_
  rw [hunits, wholeNear_of_dvd hdvd, Nat.div_mul_cancel hdvd]

/-- What has been rounded in one mode does not change in any mode. -/
theorem integral_integral (mode mode' : IntegralMode) (x : fmt.Pattern) :
    integral mode (integral mode' x) = integral mode' x := by
  rcases class_cases x with hnan | hinf | hfin
  · rw [integral_of_isNaN hnan, integral_of_isNaN (isNaN_quiet hnan), quiet_quiet]
  · rw [integral_of_isInfinite hinf, integral_of_isInfinite hinf]
  · exact integral_of_isIntegral hbias mode (isIntegral_integral hbias mode' hfin)

end

end Format

end Lanewise
