import Lanewise.Literal.Float
import Lanewise.Proofs.Decimal.Round
import Lanewise.Proofs.Literal.FloatParts

/-!
# Decimal float literals are correctly rounded

A text is a decimal literal exactly if it is put together from `FloatParts` of radix ten
(`cleanDecimal_eq_ok_iff`), and what is left of it without separators is read as a decimal of
their value (`FloatParts.ofChars?_toList`, `FloatParts.value_decimal`). So a decimal literal is
its value rounded to nearest, or too large (`readFloatBody_decimal`), and never one that its
reader cannot read.
-/

namespace Lanewise

namespace Decimal

open Numeral Literal

/-! ## Numbers and powers -/

theorem readNat?_of_forall {text : List Char} (hne : text ≠ []) (h : ∀ c ∈ text, IsDigit 10 c) :
    readNat? text = some (Numeral.value 10 text) := by
  have hall : (text.all fun c => (digit? 10 c).isSome) = true := List.all_eq_true.2 h
  rw [readNat?, hall, if_pos (by simpa using hne)]

theorem readPower?_written {isMark : Char → Bool} (e : ExponentParts isMark)
    (h : ∀ c ∈ e.digits.1, IsDigit 10 c) : readPower? e.written = some e.value := by
  have hread := readNat?_of_forall e.digits.2.ne_nil h
  rw [readPower?, ExponentParts.written, splitSign_isRun e.sign e.digits.2, ExponentParts.value]
  rcases e.sign with _ | sign
  · simp [hread, signed]
  · cases sign <;> simp [hread, signed]

end Decimal

namespace Literal

open Numeral Format

variable {fmt : Format}

/-! ## The text -/

/-- The marks of a decimal are letters. -/
theorem isExponentMark_decimal : IsExponentMark 10 Decimal.isExponentMark where
  not_digit := by
    intro c hc
    have hlower : c ≠ 'e' := by
      rintro rfl
      exact absurd hc (by decide)
    have hupper : c ≠ 'E' := by
      rintro rfl
      exact absurd hc (by decide)
    simp [Decimal.isExponentMark, hlower, hupper]
  not_separator := rfl
  not_point := rfl

/-- The decimal literals are the texts put together from parts. Their separators are dropped. -/
theorem cleanDecimal_eq_ok_iff (text cleaned : List Char) :
    cleanDecimal text = .ok cleaned ↔
      ∃ parts : FloatParts 10 Decimal.isExponentMark, parts.toList = text ∧
        cleaned = parts.clean.toList := by
  constructor
  · intro h
    rcases hcut : cut Decimal.isExponentMark text with ⟨mantissa, exponent?⟩
    rcases hpoint : cutPoint mantissa with ⟨whole, fraction?⟩
    simp only [cleanDecimal, hcut, hpoint, bind_eq_ok_iff] at h
    obtain ⟨⟨⟩, hwhole, ⟨⟩, hfraction, h⟩ := h
    obtain ⟨hexponent, hcleaned⟩ : (∀ written ∈ exponent?, IsRun 10 (splitSign written).2) ∧
        dropSeparators text = cleaned := by
      cases exponent? with
      | none => exact ⟨by simp, Except.ok.inj h⟩
      | some written =>
        obtain ⟨⟨⟩, hwritten, h⟩ := bind_eq_ok_iff.1 h
        refine ⟨?_, Except.ok.inj h⟩
        rintro _ ⟨⟩
        exact (checkDigits_eq_ok_iff _).1 hwritten
    obtain ⟨parts, rfl⟩ := FloatParts.exists_of_cuts hcut hpoint
      ((checkDigits_eq_ok_iff _).1 hwhole) ((checkOptionalDigits_eq_ok_iff _).1 hfraction)
      hexponent
    exact ⟨parts, rfl, by rw [parts.toList_clean isExponentMark_decimal, hcleaned]⟩
  · rintro ⟨parts, rfl, rfl⟩
    rw [parts.toList_clean isExponentMark_decimal]
    simp only [cleanDecimal, parts.cut_toList isExponentMark_decimal, parts.cutPoint_mantissaText,
      bind_eq_ok_iff]
    refine ⟨(), checkDigits_of_isRun parts.whole.2, (),
      checkOptionalDigits_of_forall parts.isRun_fraction, ?_⟩
    cases parts.exponent with
    | none => rfl
    | some e =>
      refine bind_eq_ok_iff.2 ⟨(), ?_, rfl⟩
      rw [ExponentParts.written, splitSign_isRun e.sign e.digits.2]
      exact checkDigits_of_isRun e.digits.2

/-! ## The value -/

namespace FloatParts

variable {isMark : Char → Bool} (parts : FloatParts 10 isMark)

/-- The decimal that parts without separators write. -/
def decimal : Decimal where
  digits := Numeral.value 10 (parts.whole.1 ++ parts.fractionDigits)
  exponent := parts.exponentValue - parts.fractionDigits.length

theorem value_decimal (h : parts.IsClean) : parts.decimal.value = parts.value 10 := by
  have hlength : digitCount 10 parts.fractionDigits = parts.fractionDigits.length :=
    List.countP_eq_length.2 h.fraction
  rw [Decimal.value, decimal, value, mantissa, value_append, ← hlength, zpow_sub₀ (by norm_num),
    zpow_natCast]
  push_cast
  field_simp

theorem ofChars?_toList {parts : FloatParts 10 Decimal.isExponentMark} (h : parts.IsClean) :
    Decimal.ofChars? parts.toList = some parts.decimal := by
  have hne : parts.whole.1 ++ parts.fractionDigits ≠ [] :=
    List.append_ne_nil_of_left_ne_nil parts.whole.2.ne_nil _
  have hdigits : Decimal.readNat? (parts.whole.1 ++ parts.fractionDigits) =
      some (Numeral.value 10 (parts.whole.1 ++ parts.fractionDigits)) := by
    refine Decimal.readNat?_of_forall hne fun c hc => ?_
    rcases List.mem_append.1 hc with hc | hc
    · exact h.whole c hc
    · exact h.fraction c hc
  have hpower := h.exponent
  simp only [Decimal.ofChars?, parts.cut_toList isExponentMark_decimal,
    parts.cutPoint_mantissaText, parts.fraction?_getD, hdigits]
  unfold decimal exponentValue
  cases he : parts.exponent with
  | none => simp [parts.whole.2.ne_nil]
  | some e => simp [parts.whole.2.ne_nil, Decimal.readPower?_written e (hpower e he)]

end FloatParts

/-! ## Reading -/

/-- A text without a letter of a special form is left to the reader of decimals. -/
theorem readFloatBody_of_not_mem (reader : DecimalReader fmt) {text : List Char}
    (hinf : 'i' ∉ text) (hnan : 'n' ∉ text) (hhex : 'x' ∉ text) :
    readFloatBody reader text = readDecimalWith reader text := by
  unfold readFloatBody
  split
  · simp at hinf
  · simp at hnan
  · simp at hnan
  · simp at hhex
  · rfl

theorem readFloatBody_decimalParts (reader : DecimalReader fmt)
    (parts : FloatParts 10 Decimal.isExponentMark) :
    readFloatBody reader parts.toList = readDecimalWith reader parts.toList := by
  refine readFloatBody_of_not_mem reader (mt parts.mem_toList ?_) (mt parts.mem_toList ?_)
    (mt parts.mem_toList ?_)
  all_goals decide

theorem nearestDecimal_clean (heb : 2 ≤ fmt.exponentBits)
    (parts : FloatParts 10 Decimal.isExponentMark) :
    nearestDecimal fmt parts.clean.toList =
      if fmt.nearestBits (parts.value 10) < fmt.infinityBits
      then some (fmt.pattern false (fmt.nearestBits (parts.value 10)), false)
      else some (fmt.infinity false, true) := by
  have hround : parts.clean.decimal.round fmt =
      if fmt.nearestBits (parts.value 10) < fmt.infinityBits
      then some (fmt.nearestBits (parts.value 10)) else none := by
    rw [Decimal.round_eq heb, FloatParts.value_decimal _ parts.isClean_clean, parts.value_clean]
  simp only [nearestDecimal, FloatParts.ofChars?_toList parts.isClean_clean, Option.bind_eq_bind,
    Option.bind_some, hround]
  split_ifs <;> rfl

/-- A decimal literal is read as its value, rounded. -/
theorem readFloatBody_decimal (heb : 2 ≤ fmt.exponentBits)
    (parts : FloatParts 10 Decimal.isExponentMark) :
    readFloatBody (nearestDecimal fmt) parts.toList =
      if fmt.nearestBits (parts.value 10) < fmt.infinityBits
      then .ok (fmt.nearestBits (parts.value 10)) else .error .floatOutOfRange := by
  have hclean := (cleanDecimal_eq_ok_iff parts.toList _).2 ⟨parts, rfl, rfl⟩
  simp only [readFloatBody_decimalParts, readDecimalWith, hclean, bind, Except.bind,
    nearestDecimal_clean heb]
  by_cases hlt : fmt.nearestBits (parts.value 10) < fmt.infinityBits
  · simp only [if_pos hlt, magnitude_pattern false (hlt.trans fmt.infinityBits_lt)]
  · simp only [if_neg hlt]

end Literal

end Lanewise
