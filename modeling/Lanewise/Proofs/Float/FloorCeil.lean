import Mathlib.Algebra.Order.Floor.Ring
import Mathlib.Data.Rat.Floor
import Lanewise.Proofs.Float.Integral

/-!
# Floor, ceiling and the nearest integer

The floor of a finite number is a number that stands for the floor of a rational
(`rational_floor`), by the division of its signed units, and the ceiling follows by negation
(`rational_ceil`). Between them a positive number lies by its fraction, which is the part of one
that nearest compares with one half (`fract_half_iff`), so nearest is the nearer side or else the
even one (`isNearerBound_of_positive`). For negative numbers the sides are exchanged
(`IsNearerBound.neg`).
-/

namespace Lanewise

namespace Format

variable {fmt : Format} {x : fmt.Pattern}

/-! ## Floor and ceiling -/

/-- The order of numbers that are not NaNs is the order of their values. -/
theorem le_iff_rational (hx : isNaN x = false) (hy : isNaN y = false) :
    le x y = true ↔ rational x ≤ rational y := by
  have hone : (0 : ℚ) < fmt.unitsOfOne := by exact_mod_cast fmt.unitsOfOne_pos
  rw [le, related, value?_of_not_isNaN hx, value?_of_not_isNaN hy, rational_eq, rational_eq,
    div_le_div_iff_of_pos_right hone, Int.cast_le]
  exact decide_eq_true_iff

/-- Of a negative number the floor has the greater magnitude, unless the number is an integer. -/
theorem signed_wholeNear_floor (fmt : Format) (negative : Bool) (m : ℕ) :
    Datum.signed negative (wholeNear fmt .floor negative m) =
      Datum.signed negative m / fmt.unitsOfOne := by
  have hpos : (0 : ℤ) < fmt.unitsOfOne := by exact_mod_cast fmt.unitsOfOne_pos
  cases negative with
  | false => simp [Datum.signed, wholeNear, IntegralMode.awayFromZero]
  | true =>
    by_cases hdvd : fmt.unitsOfOne ∣ m
    · rw [wholeNear_of_dvd hdvd]
      simp [Datum.signed, Int.neg_ediv, Int.natCast_dvd_natCast.2 hdvd]
    · have hpart : m % fmt.unitsOfOne ≠ 0 := fun h => hdvd (Nat.dvd_of_mod_eq_zero h)
      have hdvd' : ¬(fmt.unitsOfOne : ℤ) ∣ m := fun h => hdvd (Int.natCast_dvd_natCast.1 h)
      simp [Datum.signed, wholeNear, IntegralMode.awayFromZero, Int.neg_ediv, hpart, hdvd',
        Int.sign_eq_one_of_pos hpos]
      ring

section

variable (hbias : fmt.mantissaBits ≤ fmt.bias)

include hbias

theorem rational_floor (hx : IsFinite x) : rational (integral .floor x) = ⌊rational x⌋ := by
  obtain ⟨-, hsign, hunits⟩ := integral_of_isFinite hbias .floor hx
  rw [rational_of_units hunits, hsign, signed_wholeNear_floor, rational_eq,
    Rat.floor_intCast_div_natCast]

theorem rational_ceil (hx : IsFinite x) : rational (integral .ceil x) = ⌈rational x⌉ := by
  rw [integral_eq_neg hbias, IntegralMode.dual, rational_neg,
    rational_floor hbias ((isFinite_neg x).2 hx), rational_neg, Int.floor_neg]
  push_cast
  ring

theorem floor_le (hx : isNaN x = false) : le (integral .floor x) x = true := by
  rw [le_iff_rational (isNaN_integral hbias _ hx) hx]
  rcases class_cases x with hnan | hinf | hfin
  · exact absurd hnan (by simp [hx])
  · rw [integral_of_isInfinite hinf]
  · rw [rational_floor hbias hfin]
    exact Int.floor_le _

theorem le_ceil (hx : isNaN x = false) : le x (integral .ceil x) = true := by
  rw [le_iff_rational hx (isNaN_integral hbias _ hx)]
  rcases class_cases x with hnan | hinf | hfin
  · exact absurd hnan (by simp [hx])
  · rw [integral_of_isInfinite hinf]
  · rw [rational_ceil hbias hfin]
    exact Int.le_ceil _

end

/-! ## The nearer side -/

/-- The results on both sides of a number, and the one that is nearer to it or else even. -/
structure IsNearerBound (x lower upper z : fmt.Pattern) : Prop where
  either : z = lower ∨ z = upper
  below : rational x - rational lower < rational upper - rational x → z = lower
  above : rational upper - rational x < rational x - rational lower → z = upper
  even : rational x - rational lower = rational upper - rational x → lower ≠ upper →
    ∃ n : ℤ, rational z = 2 * n

/-- A number that is not rounded is the nearest. -/
theorem isNearerBound_self (x : fmt.Pattern) : IsNearerBound x x x x :=
  ⟨Or.inl rfl, fun _ => rfl, fun _ => rfl, fun _ h => absurd rfl h⟩

theorem isNearerBound_lower {lower upper : fmt.Pattern}
    (hle : rational x - rational lower ≤ rational upper - rational x)
    (heven : rational x - rational lower = rational upper - rational x →
      ∃ n : ℤ, rational lower = 2 * n) : IsNearerBound x lower upper lower :=
  ⟨Or.inl rfl, fun _ => rfl, fun h => absurd h hle.not_gt, fun h _ => heven h⟩

theorem isNearerBound_upper {lower upper : fmt.Pattern}
    (hle : rational upper - rational x ≤ rational x - rational lower)
    (heven : rational x - rational lower = rational upper - rational x →
      ∃ n : ℤ, rational upper = 2 * n) : IsNearerBound x lower upper upper :=
  ⟨Or.inr rfl, fun h => absurd h hle.not_gt, fun _ => rfl, fun h _ => heven h⟩

/-- Negation exchanges the sides. -/
theorem IsNearerBound.neg {lower upper z : fmt.Pattern} (h : IsNearerBound x lower upper z) :
    IsNearerBound (neg x) (neg upper) (neg lower) (neg z) := by
  refine ⟨?_, ?_, ?_, ?_⟩
  · rcases h.either with rfl | rfl
    · exact Or.inr rfl
    · exact Or.inl rfl
  · simp only [rational_neg]
    intro hlt
    rw [h.above (by linarith)]
  · simp only [rational_neg]
    intro hlt
    rw [h.below (by linarith)]
  · simp only [rational_neg]
    intro htie hne
    obtain ⟨n, hn⟩ := h.even (by linarith) (fun heq => hne (by rw [heq]))
    exact ⟨-n, by rw [hn]; push_cast; ring⟩

/-- The fraction of a positive number is the part of one that is left over. -/
theorem fract_rational (hsign : isNegative x = false) : Int.fract (rational x) =
    (units x % fmt.unitsOfOne : ℕ) / (fmt.unitsOfOne : ℚ) := by
  rw [rational_eq, hsign, Datum.signed, if_neg Bool.false_ne_true, Int.cast_natCast,
    Int.fract_div_natCast_eq_div_natCast_mod]

theorem fract_half_iff (hsign : isNegative x = false) :
    (Int.fract (rational x) ≤ 1 / 2 ↔ 2 * (units x % fmt.unitsOfOne) ≤ fmt.unitsOfOne) ∧
      (1 / 2 ≤ Int.fract (rational x) ↔ fmt.unitsOfOne ≤ 2 * (units x % fmt.unitsOfOne)) := by
  have hone : (0 : ℚ) < fmt.unitsOfOne := by exact_mod_cast fmt.unitsOfOne_pos
  rw [fract_rational hsign, div_le_div_iff₀ hone two_pos, div_le_div_iff₀ two_pos hone, one_mul,
    mul_comm]
  exact_mod_cast And.intro Iff.rfl Iff.rfl

section

variable (hbias : fmt.mantissaBits ≤ fmt.bias)

include hbias

/-- Nearest is down or up by the part of one, and by the whole at one half. -/
theorem nearest_cases (hx : IsFinite x) (hsign : isNegative x = false) :
    (integral .nearest x = integral .floor x ∧ 2 * (units x % fmt.unitsOfOne) ≤ fmt.unitsOfOne ∧
      (2 * (units x % fmt.unitsOfOne) = fmt.unitsOfOne → Even (units x / fmt.unitsOfOne))) ∨
    (integral .nearest x = integral .ceil x ∧ fmt.unitsOfOne ≤ 2 * (units x % fmt.unitsOfOne) ∧
      (2 * (units x % fmt.unitsOfOne) = fmt.unitsOfOne → Even (units x / fmt.unitsOfOne + 1))) := by
  have hpos := fmt.unitsOfOne_pos
  simp only [Nat.even_iff]
  cases haway : IntegralMode.nearest.awayFromZero false (units x / fmt.unitsOfOne)
      (units x % fmt.unitsOfOne) fmt.unitsOfOne with
  | false =>
    have hfloor : integral .nearest x = integral .floor x := by
      refine integral_congr hbias hx ?_
      rw [hsign, wholeNear, haway]
      rfl
    simp only [IntegralMode.awayFromZero, Bool.or_eq_false_iff, decide_eq_false_iff_not,
      Bool.and_eq_false_iff, beq_eq_false_iff_ne] at haway
    exact Or.inl ⟨hfloor, by omega, by omega⟩
  | true =>
    simp only [IntegralMode.awayFromZero, Bool.or_eq_true, decide_eq_true_iff, Bool.and_eq_true,
      beq_iff_eq] at haway
    have hceil : integral .nearest x = integral .ceil x := by
      have hpart : units x % fmt.unitsOfOne ≠ 0 := by omega
      refine integral_congr hbias hx ?_
      simp [hsign, wholeNear, IntegralMode.awayFromZero, haway, hpart]
    exact Or.inr ⟨hceil, by omega, by omega⟩

/-- A positive number that is not an integer is its fraction above its floor, and at one half the
even side is taken. -/
theorem isNearerBound_of_positive (hx : IsFinite x) (hsign : isNegative x = false)
    (hpart : units x % fmt.unitsOfOne ≠ 0) :
    IsNearerBound x (integral .floor x) (integral .ceil x) (integral .nearest x) := by
  have hone : (0 : ℚ) < fmt.unitsOfOne := by exact_mod_cast fmt.unitsOfOne_pos
  have hfract : Int.fract (rational x) ≠ 0 := by
    rw [fract_rational hsign]
    exact div_ne_zero (Nat.cast_ne_zero.2 hpart) hone.ne'
  have hbelow : rational x - rational (integral .floor x) = Int.fract (rational x) := by
    rw [rational_floor hbias hx, Int.self_sub_floor]
  have habove : rational (integral .ceil x) - rational x = 1 - Int.fract (rational x) := by
    rw [rational_ceil hbias hx, Int.ceil_sub_self_eq hfract]
  have hfloor : rational (integral .floor x) = (units x / fmt.unitsOfOne : ℕ) := by
    obtain ⟨-, hkept, hunits⟩ := integral_of_isFinite hbias .floor hx
    rw [rational_of_units hunits, hkept, hsign]
    rfl
  obtain ⟨hdown, hup⟩ := fract_half_iff hsign
  rcases nearest_cases hbias hx hsign with ⟨hnear, hle, heven⟩ | ⟨hnear, hle, heven⟩
  · have hhalf := hdown.2 hle
    rw [hnear]
    refine isNearerBound_lower (by linarith) fun htie => ?_
    obtain ⟨n, hn⟩ := heven (le_antisymm hle (hup.1 (by linarith)))
    exact ⟨n, by rw [hfloor, hn]; push_cast; ring⟩
  · have hhalf := hup.2 hle
    rw [hnear]
    refine isNearerBound_upper (by linarith) fun htie => ?_
    obtain ⟨n, hn⟩ := heven (le_antisymm (hdown.1 (by linarith)) hle)
    have hceil : rational (integral .ceil x) = (units x / fmt.unitsOfOne + 1 : ℕ) := by
      push_cast
      linarith
    exact ⟨n, by rw [hceil, hn]; push_cast; ring⟩

theorem isNearerBound_nearest (x : fmt.Pattern) (hx : isNaN x = false) :
    IsNearerBound x (integral .floor x) (integral .ceil x) (integral .nearest x) := by
  by_cases hinf : isInfinite x = true
  · simp only [integral_of_isInfinite hinf]
    exact isNearerBound_self x
  have hfin : IsFinite x := ((class_cases x).resolve_left (by simp [hx])).resolve_left hinf
  by_cases hpart : units x % fmt.unitsOfOne = 0
  · have hintegral : IsIntegral x := (isIntegral_iff x).2 ⟨hfin, Nat.dvd_of_mod_eq_zero hpart⟩
    simp only [integral_of_isIntegral hbias _ hintegral]
    exact isNearerBound_self x
  cases hsign : isNegative x with
  | false => exact isNearerBound_of_positive hbias hfin hsign hpart
  | true =>
    have hneg := (isNearerBound_of_positive hbias ((isFinite_neg x).2 hfin)
      (by rw [isNegative_neg, hsign]; rfl) (by rwa [units_neg])).neg
    rw [Format.neg_neg] at hneg
    rw [integral_eq_neg hbias .floor x, integral_eq_neg hbias .ceil x,
      integral_eq_neg hbias .nearest x]
    exact hneg

end

end Format

/-! ## Lanes -/

namespace FloatShape

open Format

/-- The mantissas of the lane types end within the exponent range. -/
theorem mantissaBits_le_bias (s : FloatShape) : s.format.mantissaBits ≤ s.format.bias := by
  cases s <;> decide

/-- On all bit patterns, NaNs included, floor is the negated ceiling of the negated number,
truncation is one of the two by the sign bit, nearest does not depend on the sign, and nothing is
rounded further or changes its sign. A number that is not a NaN lies between its floor and its
ceiling, which are those of the rational it stands for, and nearest is the nearer of them or the
even one. What a machine may return for an IEEE rounding determines the result. -/
theorem roundings_consistent (s : FloatShape) (x : s.format.Pattern) :
    integral .floor x = neg (integral .ceil (neg x)) ∧
    integral .trunc x = (if isNegative x then integral .ceil x else integral .floor x) ∧
    integral .nearest (neg x) = neg (integral .nearest x) ∧
    (∀ mode, integral mode (integral mode x) = integral mode x ∧
      isNegative (integral mode x) = isNegative x ∧
      (rational (integral mode x) = 0 → integral mode x = s.format.zero (isNegative x))) ∧
    (isNaN x = false →
      le (integral .floor x) x = true ∧ le x (integral .ceil x) = true ∧
      (∀ mode, isInfinite (integral mode x) = true ∨ IsIntegral (integral mode x)) ∧
      IsNearerBound x (integral .floor x) (integral .ceil x) (integral .nearest x)) ∧
    (IsFinite x → rational (integral .floor x) = ⌊rational x⌋ ∧
      rational (integral .ceil x) = ⌈rational x⌉) ∧
    (isInfinite x = true ∨ IsIntegral x → ∀ mode, integral mode x = x) ∧
    ∀ mode raw, IsMachineResult (integral? mode x) raw →
      integral mode x = if isNaN raw then nanOf [x] else raw := by
  have hbias := s.mantissaBits_le_bias
  refine ⟨integral_eq_neg hbias .floor x, integral_trunc hbias x, integral_neg hbias .nearest x,
    fun mode =>
      ⟨integral_integral hbias mode mode x, isNegative_integral hbias mode x, fun h => ?_⟩,
    fun hnan => ⟨floor_le hbias hnan, le_ceil hbias hnan, fun mode => ?_,
      isNearerBound_nearest hbias x hnan⟩,
    fun hfin => ⟨rational_floor hbias hfin, rational_ceil hbias hfin⟩, ?_,
    fun mode => (settled_integral mode x).machine⟩
  · rw [← isNegative_integral hbias mode x]
    exact eq_zero_of_rational h
  · exact isInfinite_or_isIntegral hbias mode hnan
  · rintro (hinf | hint) mode
    · exact integral_of_isInfinite hinf mode
    · exact integral_of_isIntegral hbias mode hint

/-- Of -3 and -2 the even one is near -2.5, -0.25 becomes the negative zero, infinities stay, and
the NaN of a machine is replaced by the quiet operand. -/
theorem roundings_consistent_tie :
    @isNaN .binary32 0xC0200000#32 = false ∧ @IsFinite .binary32 0xC0200000#32 ∧
      @IsNearerBound .binary32 0xC0200000#32 0xC0400000#32 0xC0000000#32 0xC0000000#32 ∧
      @rational .binary32 0xC0400000#32 = ⌊@rational .binary32 0xC0200000#32⌋ ∧
      @integral .binary32 .nearest 0xBE800000#32 = 0x80000000#32 ∧
      @integral .binary32 .floor 0xFF800000#32 = 0xFF800000#32 ∧
      @integral .binary32 .ceil 0x7F800001#32 = 0x7FC00001#32 := by
  have hnan : @isNaN .binary32 0xC0200000#32 = false := by decide
  have hfin : @IsFinite .binary32 0xC0200000#32 := by
    unfold IsFinite
    decide
  have hfloor : @integral .binary32 .floor 0xC0200000#32 = 0xC0400000#32 := by decide +kernel
  have hceil : @integral .binary32 .ceil 0xC0200000#32 = 0xC0000000#32 := by decide +kernel
  have hnearest : @integral .binary32 .nearest 0xC0200000#32 = 0xC0000000#32 := by decide +kernel
  obtain ⟨-, -, -, -, hsides, hvalues, -, -⟩ := roundings_consistent f32x4 0xC0200000#32
  refine ⟨hnan, hfin, ?_, ?_, ?_, ?_, ?_⟩
  · have hside := (hsides hnan).2.2.2
    rwa [hfloor, hceil, hnearest] at hside
  · have hvalue := (hvalues hfin).1
    rwa [hfloor] at hvalue
  · refine ((roundings_consistent f32x4 0xBE800000#32).2.2.2.1 .nearest).2.2 ?_
    have hunits : @units .binary32 (integral .nearest 0xBE800000#32) = 0 := by decide +kernel
    rw [rational_eq, hunits]
    simp [Datum.signed]
  · exact (roundings_consistent f32x4 0xFF800000#32).2.2.2.2.2.2.1 (Or.inl (by decide)) .floor
  · have hraw : @isNaN .binary32 0xFFC00000#32 = true := by decide
    exact ((roundings_consistent f32x4 0x7F800001#32).2.2.2.2.2.2.2 .ceil _ hraw).trans (by decide)

end FloatShape

end Lanewise
