import Lanewise.Proofs.Literal.FloatGrammar

/-!
# Powers of two as literals

`Format.powerBits?` are the magnitude bits of a power of two : an exponent field and no mantissa,
a single mantissa bit below the least normal, nothing below the least subnormal. They are the
bits that the power rounds to (`Format.ite_nearestBits_two_zpow`), so a literal `0x1p` with an
exponent is read as the power of its exponent as that is read, cut off at `exponentLimit`.

The cut is harmless in exactly the formats with at most 31 exponent bits
(`readFloatWith_powerOfTwo_iff`). With 31 bits every power beyond the limit is beyond the format
too. With 32 bits the limit is the greatest exponent of the format, and the next power is read as
the greatest one (`readFloatWith_powerOfTwo_wide` shows a format with forty).
-/

namespace Lanewise

namespace Format

variable {fmt : Format} {n : ℤ}

/-! ## The bits of a power of two -/

/-- The magnitude bits of `2 ^ n`, unless it is too large. -/
def powerBits? (fmt : Format) (n : ℤ) : Option ℕ :=
  if (fmt.bias : ℤ) < n then none
  else if fmt.minExponent ≤ n then some ((n + fmt.bias).toNat * 2 ^ fmt.mantissaBits)
  else if fmt.minExponent - fmt.mantissaBits ≤ n then
    some (2 ^ (n - fmt.minExponent + fmt.mantissaBits).toNat)
  else some 0

/-- A power of two from the least normal on is a significand of a single bit. -/
theorem nearestBits_two_zpow_of_le (h : fmt.minExponent ≤ n) :
    fmt.nearestBits ((2 : ℚ) ^ n) = (n + fmt.bias).toNat * 2 ^ fmt.mantissaBits := by
  obtain ⟨field, hfield⟩ : ∃ field : ℕ, (field : ℤ) = n - fmt.minExponent :=
    ⟨(n - fmt.minExponent).toNat, Int.toNat_of_nonneg (by omega)⟩
  have hbias : (n + fmt.bias).toNat = field + 1 := by
    rw [minExponent] at hfield
    omega
  have hvalue : fmt.bitsValue ℚ ((field + 1) * 2 ^ fmt.mantissaBits) = 2 ^ n := by
    rw [Nat.succ_mul, bitsValue, magnitudeUnits_field (Or.inr le_rfl)
      (Nat.pow_le_pow_right Nat.two_pos (Nat.le_succ _))]
    push_cast
    rw [← zpow_natCast, ← zpow_natCast, ← two_zpow_add, ← two_zpow_add, unitExponent]
    congr 1
    omega
  rw [hbias, ← hvalue, nearestBits_bitsValue]

/-- A power of two below the least normal is a single mantissa bit. -/
theorem nearestBits_two_zpow_of_lt (hmin : n < fmt.minExponent) (hunit : fmt.unitExponent ≤ n) :
    fmt.nearestBits ((2 : ℚ) ^ n) = 2 ^ (n - fmt.minExponent + fmt.mantissaBits).toNat := by
  obtain ⟨place, hplace⟩ : ∃ place : ℕ, (place : ℤ) = n - fmt.minExponent + fmt.mantissaBits :=
    ⟨_, Int.toNat_of_nonneg (by rw [unitExponent] at hunit; omega)⟩
  have hle : place ≤ fmt.mantissaBits + 1 := by omega
  have hvalue : fmt.bitsValue ℚ (2 ^ place) = 2 ^ n := by
    have hbits := @magnitudeUnits_field fmt 0 (2 ^ place) (Or.inl rfl)
      (Nat.pow_le_pow_right Nat.two_pos hle)
    rw [Nat.zero_mul, Nat.zero_add, Nat.pow_zero, Nat.mul_one] at hbits
    rw [bitsValue, hbits]
    push_cast
    rw [← zpow_natCast, ← two_zpow_add, hplace, unitExponent]
    congr 1
    ring
  rw [← hplace, Int.toNat_natCast, ← hvalue, nearestBits_bitsValue]

/-- Below the least subnormal a power of two is at most half of it. -/
theorem nearestBits_two_zpow_eq_zero (h : n < fmt.unitExponent) :
    fmt.nearestBits ((2 : ℚ) ^ n) = 0 :=
  nearestBits_eq_zero (two_zpow_pos n).le (two_zpow_le (by omega))

/-- The bits of a power within the format are finite. -/
theorem powerBits?_lt (heb : 2 ≤ fmt.exponentBits) {bits : ℕ} (h : fmt.powerBits? n = some bits) :
    bits < fmt.infinityBits := by
  have hmantissa := two_pow_lt_infinityBits heb
  unfold powerBits? at h
  split_ifs at h with hlarge hmin hunit
  · obtain rfl := Option.some.inj h
    refine Nat.mul_lt_mul_of_pos_right ?_ (Nat.two_pow_pos _)
    rw [topExponent_eq]
    omega
  · obtain rfl := Option.some.inj h
    exact (Nat.pow_le_pow_right Nat.two_pos (by omega)).trans_lt hmantissa
  · obtain rfl := Option.some.inj h
    exact (Nat.zero_le _).trans_lt hmantissa

/-- A power of two rounds to its own bits. -/
theorem ite_nearestBits_two_zpow (heb : 2 ≤ fmt.exponentBits) (n : ℤ) :
    (if fmt.nearestBits ((2 : ℚ) ^ n) < fmt.infinityBits then some (fmt.nearestBits ((2 : ℚ) ^ n))
      else none) = fmt.powerBits? n := by
  have hbias := minExponent_le_bias heb
  cases hbits : fmt.powerBits? n with
  | none =>
    have hlarge : (fmt.bias : ℤ) < n := by
      unfold powerBits? at hbits
      split_ifs at hbits with hlarge
      exact hlarge
    rw [if_neg (not_lt.2 (infinityBits_le_of_le heb (two_zpow_le (by omega))))]
  | some bits =>
    have heq : fmt.nearestBits ((2 : ℚ) ^ n) = bits := by
      unfold powerBits? at hbits
      split_ifs at hbits with hlarge hmin hunit
      · rw [nearestBits_two_zpow_of_le hmin, Option.some.inj hbits]
      · rw [nearestBits_two_zpow_of_lt (by omega) hunit, Option.some.inj hbits]
      · rw [nearestBits_two_zpow_eq_zero (by rw [unitExponent]; omega), Option.some.inj hbits]
    rw [heq, if_pos (powerBits?_lt heb hbits)]

/-- The powers up to the bias do not round to the infinity. -/
theorem nearestBits_two_zpow_lt (heb : 2 ≤ fmt.exponentBits) (h : n ≤ fmt.bias) :
    fmt.nearestBits ((2 : ℚ) ^ n) < fmt.infinityBits := by
  by_contra hlarge
  have hnone := ite_nearestBits_two_zpow heb n
  rw [if_neg hlarge] at hnone
  unfold powerBits? at hnone
  split_ifs at hnone with hbias
  omega

end Format

namespace Literal

open Numeral Format

variable {fmt : Format}

/-! ## Reading a power of two -/

/-- The digit one with an exponent. -/
def powerParts (e : ExponentParts isHexExponentMark) : FloatParts 16 isHexExponentMark where
  whole := ⟨['1'], isRun_one⟩
  fraction := none
  exponent := some e

theorem mantissa_powerParts (e : ExponentParts isHexExponentMark) :
    (powerParts e).mantissa = 1 := by
  have hwhole : Numeral.value 16 (powerParts e).whole.1 = 1 := rfl
  rw [FloatParts.mantissa_of_whole _ rfl, hwhole, Nat.cast_one]

theorem exponentValue_powerParts (e : ExponentParts isHexExponentMark) :
    (powerParts e).exponentValue = e.value :=
  rfl

/-- The literal `0x1p` with an exponent. -/
def powerLiteral (e : ExponentParts isHexExponentMark) : FloatLiteral where
  sign := none
  body := .hex (powerParts e)

/-- The power of two in a format, or the error that it is too large. -/
def powerOfTwo (fmt : Format) (n : ℤ) : Except Error fmt.Pattern :=
  match fmt.powerBits? n with
  | some bits => .ok (fmt.pattern false bits)
  | none => .error ⟨.parse, Code.invalidLiteral, "float literal out of range"⟩

/-- What is read is the power with the exponent cut off. -/
theorem readFloatWith_powerLiteral (heb : 2 ≤ fmt.exponentBits) (hmb : fmt.mantissaBits < 120)
    (reader : DecimalReader fmt) (e : ExponentParts isHexExponentMark) :
    (readFloatWith fmt reader (powerLiteral e).text).mapError LiteralError.toError =
      powerOfTwo fmt (cutOff e.value) := by
  have hbody := readFloatBody_hexParts heb hmb reader (powerParts e)
  rw [mantissa_powerParts, exponentValue_powerParts, one_mul] at hbody
  have hlist : (powerLiteral e).body.toList = '0' :: 'x' :: (powerParts e).toList := rfl
  have hpower := ite_nearestBits_two_zpow heb (cutOff e.value)
  rw [readFloatWith_literal, hlist, hbody, powerOfTwo, ← hpower]
  split_ifs <;> rfl

/-! ## The cut -/

/-- The power after one within the format is another one or too large. -/
theorem powerOfTwo_succ_ne (heb : 2 ≤ fmt.exponentBits) {n : ℤ} (hmin : fmt.minExponent ≤ n)
    (hbias : n ≤ fmt.bias) : powerOfTwo fmt n ≠ powerOfTwo fmt (n + 1) := by
  have hpower : fmt.powerBits? n = some ((n + fmt.bias).toNat * 2 ^ fmt.mantissaBits) := by
    rw [powerBits?, if_neg (by omega), if_pos hmin]
  rw [powerOfTwo, hpower]
  by_cases hlarge : (fmt.bias : ℤ) < n + 1
  · rw [powerOfTwo, powerBits?, if_pos hlarge]
    exact fun h => by cases h
  · have hnext : fmt.powerBits? (n + 1) =
        some ((n + 1 + fmt.bias).toNat * 2 ^ fmt.mantissaBits) := by
      rw [powerBits?, if_neg hlarge, if_pos (by omega)]
    rw [powerOfTwo, hnext]
    intro h
    have hmag := congrArg magnitude (Except.ok.inj h)
    rw [magnitude_pattern _ ((powerBits?_lt heb hpower).trans fmt.infinityBits_lt),
      magnitude_pattern _ ((powerBits?_lt heb hnext).trans fmt.infinityBits_lt)] at hmag
    have heq := Nat.eq_of_mul_eq_mul_right (Nat.two_pow_pos _) hmag
    rw [minExponent] at hmin
    omega

/-- With at most 31 exponent bits the cut takes away what is too large or vanishes anyway. -/
theorem powerOfTwo_cutOff (heb : fmt.exponentBits ≤ 31) (hmb : fmt.mantissaBits ≤ 61) (n : ℤ) :
    powerOfTwo fmt (cutOff n) = powerOfTwo fmt n := by
  have hbias : fmt.bias < 2 ^ 30 := bias_lt heb
  have hlimit : exponentLimit = 2 ^ 31 - 1 := rfl
  have hmin : fmt.minExponent = 1 - fmt.bias := rfl
  have hpower : fmt.powerBits? (cutOff n) = fmt.powerBits? n := by
    unfold cutOff
    split_ifs with hhigh hlow
    · rw [powerBits?, powerBits?, if_pos (by omega), if_pos (by omega)]
    · rw [powerBits?, powerBits?, if_neg (by omega), if_neg (by omega), if_neg (by omega),
        if_neg (by omega), if_neg (by omega), if_neg (by omega)]
    · rfl
  rw [powerOfTwo, powerOfTwo, hpower]

/-- The exponent `n` without a sign. -/
def writtenExponent (n : ℕ) : ExponentParts isHexExponentMark where
  mark := 'p'
  marks := isHexExponentMark_p
  sign := none
  digits := ⟨least 10 n, isRun_least isRadix_ten n⟩

theorem value_writtenExponent (n : ℕ) : (writtenExponent n).value = n := by
  have h : (writtenExponent n).value = ((Numeral.value 10 (least 10 n) : ℕ) : ℤ) := rfl
  rw [h, value_least isRadix_ten]

/-- A literal for a power of two is read as the power of its exponent, cut off at the limit. That
is the power it writes, whatever the exponent, in exactly the formats with at most 31 exponent
bits. -/
theorem readFloatWith_powerOfTwo_iff (heb : 2 ≤ fmt.exponentBits)
    (hwidth : fmt.mantissaBits + fmt.exponentBits ≤ 63) :
    (∀ (reader : DecimalReader fmt) (e : ExponentParts isHexExponentMark),
      (readFloatWith fmt reader (powerLiteral e).text).mapError LiteralError.toError =
        powerOfTwo fmt (cutOff e.value)) ∧
    ((∀ (reader : DecimalReader fmt) (e : ExponentParts isHexExponentMark),
      (readFloatWith fmt reader (powerLiteral e).text).mapError LiteralError.toError =
        powerOfTwo fmt e.value) ↔ fmt.exponentBits ≤ 31) := by
  have hread (reader : DecimalReader fmt) (e : ExponentParts isHexExponentMark) :=
    readFloatWith_powerLiteral heb (by omega) reader e
  refine ⟨hread, ⟨fun h => ?_, fun heb' reader e => ?_⟩⟩
  · by_contra hwide
    have hbias : exponentLimit ≤ fmt.bias := limit_le_bias (not_le.1 hwide)
    have hpos : 1 ≤ exponentLimit := by decide
    have hmin : fmt.minExponent ≤ (exponentLimit : ℤ) := by
      rw [minExponent]
      omega
    have hcut : cutOff (exponentLimit + 1 : ℕ) = exponentLimit := if_pos (by omega)
    have hexact := h (fun _ => none) (writtenExponent (exponentLimit + 1))
    rw [hread, value_writtenExponent, hcut] at hexact
    refine powerOfTwo_succ_ne heb hmin (by omega) ?_
    rw [hexact]
    push_cast
    rfl
  · rw [hread, powerOfTwo_cutOff heb' (by omega)]

/-- The exponent of the least subnormal of double precision, `-0_1074`. -/
def leastExponent : ExponentParts isHexExponentMark where
  mark := 'p'
  marks := isHexExponentMark_p
  sign := some .minus
  digits := ⟨['0', '_', '1', '0', '7', '4'],
    .separated rfl (.cons rfl (.cons rfl (.cons rfl (.single rfl))))⟩

theorem readFloatWith_powerOfTwo_binary64 :
    (readFloatWith binary64 (fun _ => none) "0x1p-0_1074").mapError LiteralError.toError =
      .ok 1#64 := by
  have h := (@readFloatWith_powerOfTwo_iff binary64 (by decide) (by decide)).2.2 (by decide)
    (fun _ => none) leastExponent
  have htext : (powerLiteral leastExponent).text = "0x1p-0_1074" := rfl
  have hpower : powerOfTwo binary64 leastExponent.value = .ok 1#64 := by decide
  rwa [htext, hpower] at h

/-- With forty exponent bits the power after the limit is read as the one at the limit. -/
theorem readFloatWith_powerOfTwo_wide :
    (powerLiteral (writtenExponent (2 ^ 31))).text = "0x1p2147483648" ∧
      readFloatWith ⟨10, 40, by decide, by decide⟩ (fun _ => none) "0x1p2147483648" =
        .ok 0x201fffffff800#51 ∧
      powerOfTwo ⟨10, 40, by decide, by decide⟩ (2 ^ 31) = .ok 0x201fffffffc00#51 :=
  ⟨by decide, by decide, by decide⟩

end Literal

end Lanewise
