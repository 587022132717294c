import Lanewise.Literal.Float
import Lanewise.Proofs.Literal.FloatParts
import Lanewise.Proofs.Literal.HexAccumulator

/-!
# Hexadecimal float literals are correctly rounded

A `HexLiteral` is a text `sign? 0x H ('.' H?)? ([pP] sign? D)?` by its parts, and
`HexLiteral.value` the exact rational number that its unsigned part writes. Reading the text
gives the sign bit with that number rounded to nearest, or the refusal as too large if rounding
the significant bits alone reaches `2 ^ (bias + 1)` (`readFloatWith_hexLiteral`).

A written exponent is cut off at `exponentLimit` (`cutOff`). Beyond it the digits of a literal that
is not too long no longer matter : with at most 30 exponent bits the number is too large or vanishes
with and without the cut (`FloatParts.nearestBits_cutOff`), and with 31 bits it still is too large
with the cut if it is without (`FloatParts.infinityBits_le_cutOff`).
-/

namespace Lanewise

namespace Literal

open Numeral Format

/-! ## The grammar -/

/-- A hexadecimal float, `sign? 0x H ('.' H?)? ([pP] sign? D)?`. -/
structure HexLiteral where
  sign : Option Sign
  parts : FloatParts 16 isHexExponentMark

namespace HexLiteral

variable (lit : HexLiteral)

def toList : List Char :=
  signText lit.sign ++ '0' :: 'x' :: lit.parts.toList

def text : String :=
  String.ofList lit.toList

/-- The number that the part after the sign writes. -/
def value : ℚ :=
  lit.parts.value 2

end HexLiteral

/-- A power of two as it is read, cut off at the limit on both sides. -/
def cutOff (e : ℤ) : ℤ :=
  if (exponentLimit : ℤ) < e then exponentLimit
  else if e < -exponentLimit then -exponentLimit
  else e

/-- A power is read as it is written, or both lie beyond the same limit. -/
theorem cutOff_cases (e : ℤ) : cutOff e = e ∨
    (cutOff e = exponentLimit ∧ (exponentLimit : ℤ) ≤ e) ∨
      (cutOff e = -exponentLimit ∧ e ≤ -exponentLimit) := by
  unfold cutOff
  split_ifs <;> omega

theorem cutOff_le (e : ℤ) : cutOff e ≤ exponentLimit := by
  unfold cutOff
  split_ifs <;> omega

/-- The magnitude is cut off before the sign is put in front. -/
theorem signed_min_limit (sign : Option Sign) (magnitude : ℕ) :
    signed sign (Nat.min magnitude exponentLimit) = cutOff (signed sign magnitude) := by
  have hmin : Nat.min magnitude exponentLimit =
      if magnitude ≤ exponentLimit then magnitude else exponentLimit := Nat.min_def
  rw [hmin, signed, signed, cutOff]
  split_ifs <;> omega

/-- A format with 32 exponent bits has the power at the limit. -/
theorem limit_le_bias {fmt : Format} (heb : 32 ≤ fmt.exponentBits) : exponentLimit ≤ fmt.bias :=
  Nat.sub_le_sub_right (Nat.pow_le_pow_right Nat.two_pos (Nat.le_sub_one_of_lt heb)) 1

/-! ## Reading the parts -/

/-- Digits that take more than 128 bits are cut off too. -/
theorem readExponent_written (e : ExponentParts isHexExponentMark) :
    readExponent e.written = .ok (cutOff e.value) := by
  have hlimit : exponentLimit < 2 ^ 128 := by decide
  have hread := readDigits_of_isRun isRadix_ten e.digits.2
  have hcut : signed e.sign (Nat.min (Numeral.value 10 e.digits.1) exponentLimit) =
      cutOff e.value := signed_min_limit e.sign _
  rw [readExponent, ExponentParts.written, splitSign_isRun e.sign e.digits.2, ← hcut]
  simp only [checkDigits_of_isRun e.digits.2]
  rcases Nat.lt_or_ge (Numeral.value 10 e.digits.1) (2 ^ 128) with hlt | hge
  · rw [if_pos hlt] at hread
    simp only [hread]
    rfl
  · rw [if_neg (not_lt.2 hge)] at hread
    have hmin : (Numeral.value 10 e.digits.1).min exponentLimit = exponentLimit :=
      Nat.min_eq_right (by omega)
    simp only [hread, hmin]
    rfl

/-- The marks of a hexadecimal float are letters beyond its digits. -/
theorem isExponentMark_hex : IsExponentMark 16 isHexExponentMark where
  not_digit := by
    intro c hc
    have hlower : c ≠ 'p' := by
      rintro rfl
      exact absurd hc (by decide)
    have hupper : c ≠ 'P' := by
      rintro rfl
      exact absurd hc (by decide)
    simp [isHexExponentMark, hlower, hupper]
  not_separator := rfl
  not_point := rfl

namespace FloatParts

theorem mantissa_nonneg {radix : ℕ} {isMark : Char → Bool} (parts : FloatParts radix isMark) :
    0 ≤ parts.mantissa := by
  unfold mantissa
  positivity

theorem mantissa_mul_zpow_nonneg {radix : ℕ} {isMark : Char → Bool}
    (parts : FloatParts radix isMark) {base : ℚ} (h : 0 ≤ base) (e : ℤ) :
    0 ≤ parts.mantissa * base ^ e :=
  mul_nonneg parts.mantissa_nonneg (zpow_nonneg h e)

variable (parts : FloatParts 16 isHexExponentMark)

/-- The part after `0x` is read as its digits, rounded. -/
theorem readHexFloat_toList (fmt : Format) : readHexFloat fmt parts.toList =
    match (HexAccumulator.ofDigits parts.whole.1 parts.fractionDigits
      (cutOff parts.exponentValue)).round fmt with
    | some bits => .ok bits
    | none => .error .floatOutOfRange := by
  simp only [readHexFloat, parts.cut_toList isExponentMark_hex, parts.cutPoint_mantissaText,
    checkDigits_of_isRun parts.whole.2, checkOptionalDigits_of_forall parts.isRun_fraction,
    parts.fraction?_getD, exponentValue]
  cases parts.exponent with
  | none => rfl
  | some e =>
    simp only [Option.map_some, readExponent_written e]
    rfl

/-! ## The digits as one number -/

/-- The number of all digits, without the point. -/
def digits : ℕ :=
  Numeral.value 16 (parts.whole.1 ++ parts.fractionDigits)

/-- The grid of the last digit, with the given power of two. -/
def grid (exponent : ℤ) : ℤ :=
  exponent - 4 * digitCount 16 parts.fractionDigits

/-- Moving the point behind the last digit. -/
theorem digits_mul_grid (e : ℤ) :
    (parts.digits : ℚ) * 2 ^ parts.grid e = parts.mantissa * 2 ^ e := by
  rw [mantissa, digits, grid, Nat.cast_ofNat, HexAccumulator.value_append_mul_grid]

theorem digits_eq_zero_iff : parts.digits = 0 ↔ parts.mantissa = 0 := by
  have hgrid := parts.digits_mul_grid 0
  rw [zpow_zero, mul_one] at hgrid
  rw [← hgrid, mul_eq_zero, Nat.cast_eq_zero, or_iff_left (two_zpow_pos _).ne']

/-- The digits of a literal are part of its text. -/
theorem digitCount_le : digitCount 16 (parts.whole.1 ++ parts.fractionDigits) ≤
    parts.toList.length := by
  have hmant : (parts.whole.1 ++ parts.fractionDigits).length ≤ parts.mantissaText.length := by
    unfold mantissaText fractionDigits fraction? pointed
    rcases parts.fraction with _ | _ | _ <;> simp
  have htext : parts.mantissaText.length ≤ parts.toList.length := by
    unfold toList
    cases parts.exponent <;> simp
  have := digitCount_le_length 16 (parts.whole.1 ++ parts.fractionDigits)
  omega

theorem places_le : digitCount 16 parts.fractionDigits ≤ parts.toList.length := by
  have hcount := parts.digitCount_le
  rw [digitCount_append] at hcount
  omega

/-! ## The cut -/

section Limits

variable {parts} {fmt : Format}

/-- At the limit, even the last digit alone is too large. -/
theorem infinityBits_le_of_limit_le (heb : 2 ≤ fmt.exponentBits) (heb' : fmt.exponentBits ≤ 31)
    (hlen : parts.toList.length < 2 ^ 28) (hmantissa : parts.mantissa ≠ 0) {e : ℤ}
    (he : (exponentLimit : ℤ) ≤ e) :
    fmt.infinityBits ≤ fmt.nearestBits (parts.mantissa * 2 ^ e) := by
  have hdigits := mt parts.digits_eq_zero_iff.1 hmantissa
  have hone : (1 : ℚ) ≤ parts.digits := by exact_mod_cast Nat.one_le_iff_ne_zero.2 hdigits
  have hplaces := parts.places_le
  have hbias := bias_lt heb'
  have hlimit : exponentLimit = 2 ^ 31 - 1 := rfl
  have hgrid : (fmt.bias : ℤ) + 1 ≤ parts.grid e := by
    rw [grid]
    omega
  rw [← digits_mul_grid]
  refine infinityBits_le_of_le heb ?_
  calc (2 : ℚ) ^ ((fmt.bias : ℤ) + 1) ≤ 2 ^ parts.grid e := two_zpow_le hgrid
    _ ≤ parts.digits * 2 ^ parts.grid e := le_mul_of_one_le_left (two_zpow_pos _).le hone

/-- At the limit on the other side, all digits together are less than half of the least
subnormal. -/
theorem nearestBits_eq_zero_of_le_limit (heb : fmt.exponentBits ≤ 30)
    (hmb : fmt.mantissaBits ≤ 63) (hlen : parts.toList.length < 2 ^ 28) {e : ℤ}
    (he : e ≤ -(exponentLimit : ℤ)) :
    fmt.nearestBits (parts.mantissa * 2 ^ e) = 0 := by
  have hdigits : (parts.digits : ℚ) ≤
      2 ^ (4 * (digitCount 16 (parts.whole.1 ++ parts.fractionDigits) : ℤ)) := by
    have hlt := value_lt 16 (parts.whole.1 ++ parts.fractionDigits)
    rw [zpow_mul, zpow_natCast]
    norm_num
    exact_mod_cast hlt.le
  have hcount := parts.digitCount_le
  have hbias := bias_lt heb
  have hlimit : exponentLimit = 2 ^ 31 - 1 := rfl
  refine nearestBits_eq_zero (parts.mantissa_mul_zpow_nonneg zero_le_two e) ?_
  calc parts.mantissa * 2 ^ e = parts.digits * 2 ^ parts.grid e := (parts.digits_mul_grid e).symm
    _ ≤ 2 ^ (4 * (digitCount 16 (parts.whole.1 ++ parts.fractionDigits) : ℤ)) *
        2 ^ parts.grid e := mul_le_mul_of_nonneg_right hdigits (two_zpow_pos _).le
    _ ≤ 2 ^ (fmt.unitExponent - 1) := by
        rw [← two_zpow_add]
        refine two_zpow_le ?_
        rw [grid, unitExponent, minExponent]
        omega

/-- Cutting off the exponent does not change the result : either the bits are the same, or the
number is too large with and without the cut. -/
theorem nearestBits_cutOff (heb : 2 ≤ fmt.exponentBits) (heb' : fmt.exponentBits ≤ 30)
    (hmb : fmt.mantissaBits ≤ 63) (hlen : parts.toList.length < 2 ^ 28) (e : ℤ) :
    fmt.nearestBits (parts.mantissa * 2 ^ cutOff e) = fmt.nearestBits (parts.mantissa * 2 ^ e) ∨
      fmt.infinityBits ≤ fmt.nearestBits (parts.mantissa * 2 ^ cutOff e) ∧
        fmt.infinityBits ≤ fmt.nearestBits (parts.mantissa * 2 ^ e) := by
  by_cases hmantissa : parts.mantissa = 0
  · left
    rw [hmantissa, zero_mul, zero_mul]
  rcases cutOff_cases e with heq | ⟨hcut, hle⟩ | ⟨hcut, hle⟩
  · rw [heq]
    exact Or.inl rfl
  · exact Or.inr ⟨infinityBits_le_of_limit_le heb (by omega) hlen hmantissa hcut.ge,
      infinityBits_le_of_limit_le heb (by omega) hlen hmantissa hle⟩
  · left
    rw [nearestBits_eq_zero_of_le_limit heb' hmb hlen hcut.le,
      nearestBits_eq_zero_of_le_limit heb' hmb hlen hle]

/-- One more exponent bit leaves room for a number that the cut keeps from vanishing, but what is
too large still is with the cut. -/
theorem infinityBits_le_cutOff (heb : 2 ≤ fmt.exponentBits) (heb' : fmt.exponentBits ≤ 31)
    (hlen : parts.toList.length < 2 ^ 28) {e : ℤ}
    (hlarge : fmt.infinityBits ≤ fmt.nearestBits (parts.mantissa * 2 ^ e)) :
    fmt.infinityBits ≤ fmt.nearestBits (parts.mantissa * 2 ^ cutOff e) := by
  rcases cutOff_cases e with heq | ⟨hcut, -⟩ | ⟨hcut, hle⟩
  · rwa [heq]
  · refine infinityBits_le_of_limit_le heb heb' hlen (fun hzero => ?_) hcut.ge
    rw [hzero, zero_mul, nearestBits_eq_zero le_rfl (two_zpow_pos _).le] at hlarge
    exact absurd ((Nat.zero_le _).trans_lt (two_pow_lt_infinityBits heb)) (not_lt.2 hlarge)
  · -- Cutting off a small power makes the number larger.
    refine hlarge.trans (nearestBits_mono (parts.mantissa_mul_zpow_nonneg zero_le_two e) ?_)
    exact mul_le_mul_of_nonneg_left (two_zpow_le (by omega)) parts.mantissa_nonneg

end Limits

end FloatParts

/-! ## Correct rounding -/

/-- Hexadecimal parts are read as their value with the power cut off, rounded. -/
theorem readFloatBody_hexParts {fmt : Format} (heb : 2 ≤ fmt.exponentBits)
    (hmb : fmt.mantissaBits < 120) (reader : DecimalReader fmt)
    (parts : FloatParts 16 isHexExponentMark) :
    readFloatBody reader ('0' :: 'x' :: parts.toList) =
      if fmt.nearestBits (parts.mantissa * 2 ^ cutOff parts.exponentValue) < fmt.infinityBits
      then .ok (fmt.nearestBits (parts.mantissa * 2 ^ cutOff parts.exponentValue))
      else .error .floatOutOfRange := by
  obtain ⟨shift, htracks⟩ := HexAccumulator.tracks_ofDigits parts.whole.1 parts.fractionDigits
    (cutOff parts.exponentValue)
  have hround : (HexAccumulator.ofDigits parts.whole.1 parts.fractionDigits
      (cutOff parts.exponentValue)).round fmt =
        if fmt.nearestBits ((parts.digits : ℚ) * 2 ^ parts.grid (cutOff parts.exponentValue)) <
          fmt.infinityBits then some (fmt.nearestBits ((parts.digits : ℚ) *
            2 ^ parts.grid (cutOff parts.exponentValue))) else none :=
    htracks.round_eq heb hmb
  have hbody : readFloatBody reader ('0' :: 'x' :: parts.toList) =
      readHexFloat fmt parts.toList := rfl
  rw [hbody, parts.readHexFloat_toList, hround, parts.digits_mul_grid]
  split_ifs <;> rfl

/-- In a text that is not too long, hexadecimal parts are read as their value, rounded. -/
theorem readFloatBody_hexValue {fmt : Format} (heb : 2 ≤ fmt.exponentBits)
    (heb' : fmt.exponentBits ≤ 30) (hmb : fmt.mantissaBits ≤ 63) (reader : DecimalReader fmt)
    (parts : FloatParts 16 isHexExponentMark) (hlen : parts.toList.length < 2 ^ 28) :
    readFloatBody reader ('0' :: 'x' :: parts.toList) =
      if fmt.nearestBits (parts.value 2) < fmt.infinityBits then
        .ok (fmt.nearestBits (parts.value 2))
      else .error .floatOutOfRange := by
  rw [readFloatBody_hexParts heb (by omega) reader parts, FloatParts.value]
  rcases parts.nearestBits_cutOff heb heb' hmb hlen parts.exponentValue with
    heq | ⟨hcut, hvalue⟩
  · rw [heq]
  · rw [if_neg (not_lt.2 hcut), if_neg (not_lt.2 hvalue)]

namespace HexLiteral

variable (lit : HexLiteral)

theorem value_nonneg : 0 ≤ lit.value :=
  lit.parts.mantissa_mul_zpow_nonneg zero_le_two _

theorem length_parts_lt {n : ℕ} (h : lit.text.length < n) : lit.parts.toList.length < n := by
  simp only [text, String.length_ofList, toList, List.length_append, List.length_cons] at h
  omega

end HexLiteral

/-- Reading a whole literal puts the sign in front. -/
theorem readFloatWith_text {fmt : Format} (heb : 2 ≤ fmt.exponentBits)
    (heb' : fmt.exponentBits ≤ 30) (hmb : fmt.mantissaBits ≤ 63) (reader : DecimalReader fmt)
    (lit : HexLiteral) (hlen : lit.text.length < 2 ^ 28) :
    readFloatWith fmt reader lit.text =
      if fmt.nearestBits lit.value < fmt.infinityBits then
        .ok (fmt.pattern (lit.sign = some .minus) (fmt.nearestBits lit.value))
      else .error .floatOutOfRange := by
  have hsplit : splitSign lit.toList = (lit.sign, '0' :: 'x' :: lit.parts.toList) :=
    splitSign_signText lit.sign _ (by decide) (by decide)
  have hread := readFloatBody_hexValue heb heb' hmb reader lit.parts (lit.length_parts_lt hlen)
  rw [HexLiteral.value, readFloatWith, HexLiteral.text, String.toList_ofList, readFloatChars]
  simp only [hsplit, hread]
  split_ifs <;> rfl

/-- A hexadecimal literal is refused as too large exactly if rounding its significant bits alone
reaches the power of two beyond the format. Any other is read as its sign bit with the nearest
value, ties to even. -/
theorem readFloatWith_hexLiteral {fmt : Format} (heb : 2 ≤ fmt.exponentBits)
    (heb' : fmt.exponentBits ≤ 30) (hwidth : fmt.mantissaBits + fmt.exponentBits ≤ 63)
    (reader : DecimalReader fmt) (lit : HexLiteral) (hlen : lit.text.length < 2 ^ 28) :
    ((readFloatWith fmt reader lit.text).mapError LiteralError.toError =
        .error ⟨.parse, Code.invalidLiteral, "float literal out of range"⟩ ↔
      (2 : ℚ) ^ ((fmt.bias : ℤ) + 1) ≤ roundSignificant (fmt.mantissaBits + 1) lit.value) ∧
    (roundSignificant (fmt.mantissaBits + 1) lit.value < (2 : ℚ) ^ ((fmt.bias : ℤ) + 1) →
      ∃ p : fmt.Pattern, IsNearest lit.value p ∧ readFloatWith fmt reader lit.text =
        .ok ((if lit.sign = some .minus then fmt.signBit else 0#_) ||| p)) := by
  have hnonneg := lit.value_nonneg
  have hread := readFloatWith_text heb heb' (by omega) reader lit hlen
  have hrange := infinityBits_le_nearestBits_iff heb hnonneg
  by_cases hlt : fmt.nearestBits lit.value < fmt.infinityBits
  · have hsmall := mt hrange.2 (not_le.2 hlt)
    rw [if_pos hlt] at hread
    refine ⟨iff_of_false ?_ hsmall, fun _ => ⟨_, isNearest_nearestBits hnonneg hlt, ?_⟩⟩
    · rw [hread]
      simp [Except.mapError]
    · rw [hread]
      simp [pattern]
  · have hlarge := hrange.1 (not_lt.1 hlt)
    rw [if_neg hlt] at hread
    refine ⟨iff_of_true ?_ hlarge, fun hsmall => absurd hlarge (not_le.2 hsmall)⟩
    rw [hread]
    rfl

/-- A little more than half of the least single-precision subnormal, `-0x0_0.801p-1_49`. -/
def HexLiteral.aboveHalfUnit : HexLiteral where
  sign := some .minus
  parts :=
    { whole := ⟨['0', '_', '0'], .separated rfl (.single rfl)⟩
      fraction := some (some ⟨['8', '0', '1'], .cons rfl (.cons rfl (.single rfl))⟩)
      exponent := some ⟨'p', rfl, some .minus,
        ⟨['1', '_', '4', '9'], .separated rfl (.cons rfl (.single rfl))⟩⟩ }

theorem readFloatWith_aboveHalfUnit :
    ∃ p : binary32.Pattern, IsNearest HexLiteral.aboveHalfUnit.value p ∧
      readFloatWith binary32 (nearestDecimal binary32) HexLiteral.aboveHalfUnit.text =
        .ok (binary32.signBit ||| p) := by
  have hlen : HexLiteral.aboveHalfUnit.text.length < 2 ^ 28 := by
    rw [HexLiteral.text, String.length_ofList]
    decide
  have h := readFloatWith_hexLiteral (by decide) (by decide) (by decide)
    (nearestDecimal binary32) HexLiteral.aboveHalfUnit hlen
  refine h.2 (not_le.1 (mt h.1.2 ?_))
  rw [readFloatWith, HexLiteral.text, String.toList_ofList]
  decide

end Literal

end Lanewise
