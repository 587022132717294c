import Lanewise.Proofs.Literal.FloatOrder
import Lanewise.Proofs.Literal.PowerOfTwo

/-!
# Literals beyond the format

A finite literal is too large if its number rounds to the infinity (`FloatBody.IsTooLarge`). In the
formats with 2 to 31 exponent bits it is refused for it, in any text of less than `2 ^ 28`
characters (`refusesTooLarge`).

Neither bound is there for the proof. With 32 exponent bits or more the format reaches the
exponents from which on powers are not told apart, so that a power beyond it is read as one
within it (`not_refusesTooLarge_beyondLimit`). In a long text the places behind the point can
take a power that is cut off back into the format (`not_refusesTooLarge_farPoint`).
-/

namespace Lanewise

namespace Literal

open Numeral Format

variable {fmt : Format}

/-- A finite body whose number rounds to the infinity : the nearest magnitude bits reach those of
the infinity. What a decimal rounds to is what its reader reports. -/
def FloatBody.IsTooLarge (reader : DecimalReader fmt) : FloatBody → Prop
  | inf | nan | payload _ => False
  | hex parts => fmt.infinityBits ≤ fmt.nearestBits (parts.value 2)
  | decimal parts => ∃ x, reader parts.clean.toList = some (x, true)

/-- A literal that is too large is refused for it. -/
def RefusesTooLarge (reader : DecimalReader fmt) (lit : FloatLiteral) : Prop :=
  lit.body.IsTooLarge reader →
    (readFloatWith fmt reader lit.text).mapError LiteralError.toError =
      .error ⟨.parse, Code.invalidLiteral, "float literal out of range"⟩

/-- If decimals are rounded correctly, a body is too large exactly if its number becomes too large
when its significant bits are limited. -/
theorem isTooLarge_nearestDecimal_iff (heb : 2 ≤ fmt.exponentBits) (body : FloatBody) :
    body.IsTooLarge (nearestDecimal fmt) ↔ ∃ x, body.value? = some x ∧ RoundsToInfinity fmt x := by
  have hrange {x : ℚ} (h : body.value? = some x) :
      fmt.infinityBits ≤ fmt.nearestBits x ↔ RoundsToInfinity fmt x :=
    infinityBits_le_nearestBits_iff heb (FloatBody.value?_nonneg h)
  cases body with
  | hex parts => simp [FloatBody.IsTooLarge, FloatBody.value?, ← hrange rfl]
  | decimal parts =>
    simp only [FloatBody.IsTooLarge, nearestDecimal_clean heb, FloatBody.value?, Option.some.injEq,
      exists_eq_left', ← hrange rfl]
    split_ifs with hlt
    · simp [hlt]
    · simpa using hlt
  | _ => simp [FloatBody.IsTooLarge, FloatBody.value?]

theorem refusesTooLarge (heb : 2 ≤ fmt.exponentBits) (heb' : fmt.exponentBits ≤ 31)
    (hmb : fmt.mantissaBits < 120) (reader : DecimalReader fmt) {lit : FloatLiteral}
    (hlen : lit.text.length < 2 ^ 28) : RefusesTooLarge reader lit := by
  intro hlarge
  have hbody : readFloatBody reader lit.body.toList = .error .floatOutOfRange := by
    rcases lit with ⟨sign, body⟩
    cases body with
    | hex parts =>
      have hlist := FloatLiteral.length_hexParts_lt hlen
      rw [FloatBody.toList, readFloatBody_hexParts heb hmb,
        if_neg (not_lt.2 (FloatParts.infinityBits_le_cutOff heb heb' hlist hlarge))]
    | decimal parts =>
      obtain ⟨x, hx⟩ := hlarge
      have hclean := (cleanDecimal_eq_ok_iff parts.toList _).2 ⟨parts, rfl, rfl⟩
      simp only [FloatBody.toList, readFloatBody_decimalParts, readDecimalWith, hclean, bind,
        Except.bind, hx]
    | _ => exact hlarge.elim
  rw [readFloatWith_literal, hbody]
  rfl

theorem not_refusesTooLarge {reader : DecimalReader fmt} {lit : FloatLiteral} {x : fmt.Pattern}
    (hlarge : lit.body.IsTooLarge reader)
    (h : (readFloatWith fmt reader lit.text).mapError LiteralError.toError = .ok x) :
    ¬RefusesTooLarge reader lit := by
  intro hrefuses
  have hrefused := hrefuses hlarge
  rw [h] at hrefused
  cases hrefused

/-! ## A power beyond every format -/

theorem isTooLarge_powerLiteral (heb : 2 ≤ fmt.exponentBits) {n : ℕ} (hn : fmt.bias < n)
    (reader : DecimalReader fmt) : (powerLiteral (writtenExponent n)).body.IsTooLarge reader := by
  have hvalue : (powerParts (writtenExponent n)).value 2 = 2 ^ (n : ℤ) := by
    rw [FloatParts.value, mantissa_powerParts, one_mul, exponentValue_powerParts,
      value_writtenExponent]
  change fmt.infinityBits ≤ fmt.nearestBits ((powerParts (writtenExponent n)).value 2)
  rw [hvalue]
  exact infinityBits_le_of_le heb (two_zpow_le (by omega))

/-- `0x1p4611686018427387904`. -/
def beyondLimit : FloatLiteral :=
  powerLiteral (writtenExponent (2 ^ 62))

theorem length_beyondLimit : beyondLimit.text.length < 2 ^ 28 := by
  decide

theorem isTooLarge_beyondLimit (heb : 2 ≤ fmt.exponentBits) (heb' : fmt.exponentBits ≤ 62)
    (reader : DecimalReader fmt) : beyondLimit.body.IsTooLarge reader := by
  have hbias : fmt.bias < 2 ^ 61 := bias_lt heb'
  exact isTooLarge_powerLiteral heb (by omega) reader

/-- The power is read as the one at the limit, which a wide format has. -/
theorem not_refusesTooLarge_beyondLimit (heb : 32 ≤ fmt.exponentBits)
    (heb' : fmt.exponentBits ≤ 62) (hmb : fmt.mantissaBits < 120) (reader : DecimalReader fmt) :
    ¬RefusesTooLarge reader beyondLimit := by
  have hpower : fmt.powerBits? exponentLimit =
      some (((exponentLimit : ℤ) + fmt.bias).toNat * 2 ^ fmt.mantissaBits) := by
    have hlimit := limit_le_bias heb
    have hpos : 0 < exponentLimit := by decide
    rw [powerBits?, if_neg (by omega), if_pos (by rw [minExponent]; omega)]
  have hread := readFloatWith_powerLiteral (by omega) hmb reader (writtenExponent (2 ^ 62))
  have hcut : cutOff (2 ^ 62 : ℕ) = exponentLimit := by decide
  rw [value_writtenExponent, hcut, powerOfTwo, hpower] at hread
  exact not_refusesTooLarge (isTooLarge_beyondLimit (by omega) heb' reader) hread

/-! ## Places beyond the limit -/

theorem isRun_zeros_one (zeros : ℕ) : IsRun 16 (List.replicate zeros '0' ++ ['1']) := by
  refine isRun_of_forall (by simp) fun c hc => ?_
  rcases List.mem_append.1 hc with hc | hc
  · rw [List.eq_of_mem_replicate hc]
    decide
  · rw [List.mem_singleton.1 hc]
    decide

/-- The least power of two beyond the format, from places behind the point and a power that takes
them back : `0.001p139`. -/
def farPoint (fmt : Format) (zeros : ℕ) : FloatParts 16 isHexExponentMark where
  whole := ⟨['0'], .single rfl⟩
  fraction := some (some ⟨List.replicate zeros '0' ++ ['1'], isRun_zeros_one zeros⟩)
  exponent := some (writtenExponent (4 * (zeros + 1) + fmt.bias + 1))

theorem mantissa_farPoint (fmt : Format) (zeros : ℕ) :
    (farPoint fmt zeros).mantissa = 2 ^ (-(4 * ((zeros : ℤ) + 1))) := by
  have hwhole : Numeral.value 16 (farPoint fmt zeros).whole.1 = 0 := rfl
  have hfraction : (farPoint fmt zeros).fractionDigits = List.replicate zeros '0' ++ ['1'] := rfl
  have hone : Numeral.value 16 (List.replicate zeros '0' ++ ['1']) = 1 := by
    rw [value_append_singleton, value_zeros]
    rfl
  have hcount : digitCount 16 (List.replicate zeros '0' ++ ['1']) = zeros + 1 := by
    rw [digitCount_append, digitCount_zeros]
    rfl
  rw [FloatParts.mantissa, hwhole, hfraction, hone, hcount, zpow_neg, zpow_mul]
  norm_num
  norm_cast

theorem isTooLarge_farPoint (heb : 2 ≤ fmt.exponentBits) (zeros : ℕ) (reader : DecimalReader fmt) :
    (FloatBody.hex (farPoint fmt zeros)).IsTooLarge reader := by
  have hexponent : (farPoint fmt zeros).exponentValue =
      ((4 * (zeros + 1) + fmt.bias + 1 : ℕ) : ℤ) := value_writtenExponent _
  rw [FloatBody.IsTooLarge, FloatParts.value, mantissa_farPoint, hexponent, ← two_zpow_add]
  exact infinityBits_le_of_le heb (two_zpow_le (by push_cast; omega))

/-- With as many places as the limit has powers, the power that is read does not take them back. -/
theorem not_refusesTooLarge_farPoint (heb : 2 ≤ fmt.exponentBits) (hmb : fmt.mantissaBits < 120)
    (reader : DecimalReader fmt) {zeros : ℕ} (hzeros : exponentLimit ≤ 4 * (zeros + 1)) :
    ¬RefusesTooLarge reader ⟨none, .hex (farPoint fmt zeros)⟩ := by
  have hcut : cutOff (farPoint fmt zeros).exponentValue ≤ exponentLimit := cutOff_le _
  have hfinite : fmt.nearestBits ((farPoint fmt zeros).mantissa *
      2 ^ cutOff (farPoint fmt zeros).exponentValue) < fmt.infinityBits := by
    rw [mantissa_farPoint, ← two_zpow_add]
    exact nearestBits_two_zpow_lt heb (by omega)
  refine not_refusesTooLarge (isTooLarge_farPoint heb zeros reader)
    (x := fmt.pattern false (fmt.nearestBits ((farPoint fmt zeros).mantissa *
      2 ^ cutOff (farPoint fmt zeros).exponentValue))) ?_
  rw [readFloatWith_literal, FloatBody.toList, readFloatBody_hexParts heb hmb, if_pos hfinite]
  rfl

end Literal

end Lanewise
