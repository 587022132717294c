import Lanewise.Proofs.Float.Settled
import Lanewise.Proofs.Literal.FloatGrammar

/-!
# The order of float literals

A finite literal has a rational value, whichever notation it is written in
(`FloatLiteral.value?`). It is read as the magnitude of this value, rounded, with the sign in front
(`readFloat_finite`), so the notation leaves no trace.

Rounding keeps the order of magnitudes and takes zero to zero, hence it keeps the order of signed
numbers too (`signed_le_signed`). `readFloat_order` says this of what is read : literals in order
are patterns in order, literals of one number with one sign are one pattern, and a literal is
accepted if one of greater magnitude is.
-/

namespace Lanewise

namespace Format

variable {fmt : Format}

/-! ## Patterns -/

/-- A finite pattern stands for its units, with its sign. -/
theorem value?_pattern (negative : Bool) {bits : ℕ} (h : bits < fmt.infinityBits) :
    value? (fmt.pattern negative bits) =
      some (Datum.signed negative (fmt.magnitudeUnits bits)) := by
  have hlt := h.trans fmt.infinityBits_lt
  rw [value?_of_not_isNaN (isNaN_pattern negative h.le), isNegative_pattern negative hlt,
    units_eq_magnitudeUnits, magnitude_pattern negative hlt]

/-- The units of the value nearest to a magnitude. -/
def nearestUnits (fmt : Format) (x : ℚ) : ℕ :=
  fmt.magnitudeUnits (fmt.nearestBits x)

theorem nearestUnits_mono {x y : ℚ} (hx : 0 ≤ x) (hxy : x ≤ y) :
    fmt.nearestUnits x ≤ fmt.nearestUnits y :=
  fmt.strictMono_magnitudeUnits.monotone (nearestBits_mono hx hxy)

theorem nearestUnits_zero (fmt : Format) : fmt.nearestUnits 0 = 0 := by
  have hbits : fmt.nearestBits (0 : ℚ) = 0 := nearestBits_eq_zero le_rfl (two_zpow_pos _).le
  have hunits : fmt.magnitudeUnits 0 = 0 := by simp [magnitudeUnits]
  rw [nearestUnits, hbits, hunits]

theorem abs_signed (negative : Bool) {x : ℚ} (hx : 0 ≤ x) : |if negative then -x else x| = x := by
  cases negative
  · exact abs_of_nonneg hx
  · exact (abs_neg x).trans (abs_of_nonneg hx)

/-- Rounding keeps the order of signed numbers. -/
theorem signed_le_signed {a b : Bool} {x y : ℚ} (hx : 0 ≤ x) (hy : 0 ≤ y)
    (h : (if a then -x else x) ≤ if b then -y else y) :
    Datum.signed a (fmt.nearestUnits x) ≤ Datum.signed b (fmt.nearestUnits y) := by
  cases a <;> cases b
  · have hxy : x ≤ y := h
    exact Int.ofNat_le.2 (nearestUnits_mono hx hxy)
  · -- A number that is not negative is below one that is not positive, so both are zero.
    have hxy : x ≤ -y := h
    obtain rfl : x = 0 := by linarith
    obtain rfl : y = 0 := by linarith
    rw [nearestUnits_zero]
    rfl
  · exact (Int.neg_nonpos_of_nonneg (Int.natCast_nonneg _)).trans (Int.natCast_nonneg _)
  · have hxy : -x ≤ -y := h
    exact Int.neg_le_neg (Int.ofNat_le.2 (nearestUnits_mono hy (neg_le_neg_iff.1 hxy)))

/-- The patterns of signed numbers are in the order of the numbers. -/
theorem le_pattern_nearestBits {a b : Bool} {x y : ℚ} (hx : 0 ≤ x) (hy : 0 ≤ y)
    (hfinX : fmt.nearestBits x < fmt.infinityBits) (hfinY : fmt.nearestBits y < fmt.infinityBits)
    (h : (if a then -x else x) ≤ if b then -y else y) :
    le (fmt.pattern a (fmt.nearestBits x)) (fmt.pattern b (fmt.nearestBits y)) = true := by
  have hsigned : Datum.signed a (fmt.nearestUnits x) ≤ Datum.signed b (fmt.nearestUnits y) :=
    signed_le_signed hx hy h
  rw [le, related, value?_pattern a hfinX, value?_pattern b hfinY]
  exact decide_eq_true hsigned

end Format

namespace Literal

open Numeral Format

variable {fmt : Format}

/-! ## Values -/

/-- The number that a finite body writes in either notation. -/
def FloatBody.value? : FloatBody → Option ℚ
  | inf | nan | payload _ => none
  | hex parts => some (parts.value 2)
  | decimal parts => some (parts.value 10)

theorem FloatBody.value?_nonneg {body : FloatBody} {x : ℚ} (h : body.value? = some x) :
    0 ≤ x := by
  cases body with
  | hex parts =>
    obtain rfl := Option.some.inj h
    exact parts.mantissa_mul_zpow_nonneg zero_le_two _
  | decimal parts =>
    obtain rfl := Option.some.inj h
    exact parts.mantissa_mul_zpow_nonneg (by norm_num) _
  | _ => cases h

namespace FloatLiteral

variable (lit : FloatLiteral)

def isNegative : Bool :=
  lit.sign = some .minus

/-- The number that a finite literal writes. -/
def value? : Option ℚ :=
  lit.body.value?.map fun x => if lit.isNegative then -x else x

/-- A literal is accepted as a pattern of the format. -/
def Accepted (fmt : Format) : Prop :=
  ∃ x, readFloat fmt lit.text = .ok x

end FloatLiteral

/-! ## Reading -/

/-- A finite literal is read as the magnitude of its value, rounded, unless that is too large. -/
theorem readFloat_finite (heb : 2 ≤ fmt.exponentBits) (heb' : fmt.exponentBits ≤ 30)
    (hmb : fmt.mantissaBits ≤ 63) {lit : FloatLiteral} {x : ℚ} (h : lit.body.value? = some x)
    (hlen : lit.text.length < 2 ^ 28) :
    readFloat fmt lit.text =
      if fmt.nearestBits x < fmt.infinityBits then
        .ok (fmt.pattern lit.isNegative (fmt.nearestBits x))
      else .error .floatOutOfRange := by
  have hbody : readFloatBody (nearestDecimal fmt) lit.body.toList =
      if fmt.nearestBits x < fmt.infinityBits then .ok (fmt.nearestBits x)
      else .error .floatOutOfRange := by
    rcases lit with ⟨sign, body⟩
    cases body with
    | hex parts =>
      obtain rfl := Option.some.inj h
      exact readFloatBody_hexValue heb heb' hmb _ parts (FloatLiteral.length_hexParts_lt hlen)
    | decimal parts =>
      obtain rfl := Option.some.inj h
      exact readFloatBody_decimal heb parts
    | _ => cases h
  rw [readFloat, readFloatWith_literal, hbody]
  split_ifs <;> rfl

/-- A finite literal is accepted if its value does not round to infinity. -/
theorem accepted_iff (heb : 2 ≤ fmt.exponentBits) (heb' : fmt.exponentBits ≤ 30)
    (hmb : fmt.mantissaBits ≤ 63) {lit : FloatLiteral} {x : ℚ} (h : lit.body.value? = some x)
    (hlen : lit.text.length < 2 ^ 28) :
    lit.Accepted fmt ↔ fmt.nearestBits x < fmt.infinityBits := by
  rw [FloatLiteral.Accepted, readFloat_finite heb heb' hmb h hlen]
  split_ifs with hlt <;> simp [hlt]

/-- Literals in order are read as patterns in order, literals of one number with one sign are read
alike, and a literal is accepted if one of greater magnitude is. -/
theorem readFloat_order (heb : 2 ≤ fmt.exponentBits) (heb' : fmt.exponentBits ≤ 30)
    (hwidth : fmt.mantissaBits + fmt.exponentBits ≤ 63) (lit₁ lit₂ : FloatLiteral) {v₁ v₂ : ℚ}
    (h₁ : lit₁.value? = some v₁) (h₂ : lit₂.value? = some v₂)
    (hlen₁ : lit₁.text.length < 2 ^ 28) (hlen₂ : lit₂.text.length < 2 ^ 28) :
    (v₁ ≤ v₂ → ∀ x₁ x₂, readFloat fmt lit₁.text = .ok x₁ → readFloat fmt lit₂.text = .ok x₂ →
      Format.le x₁ x₂ = true) ∧
    (v₁ = v₂ → lit₁.isNegative = lit₂.isNegative →
      (∃ x, readFloat fmt lit₁.text = .ok x ∧ readFloat fmt lit₂.text = .ok x) ∨
        ((readFloat fmt lit₁.text).mapError LiteralError.toError =
            .error ⟨.parse, Code.invalidLiteral, "float literal out of range"⟩ ∧
          (readFloat fmt lit₂.text).mapError LiteralError.toError =
            .error ⟨.parse, Code.invalidLiteral, "float literal out of range"⟩)) ∧
    (|v₁| ≤ |v₂| → lit₂.Accepted fmt → lit₁.Accepted fmt) := by
  have hmb : fmt.mantissaBits ≤ 63 := by omega
  obtain ⟨x, hx, rfl⟩ := Option.map_eq_some_iff.1 h₁
  obtain ⟨y, hy, rfl⟩ := Option.map_eq_some_iff.1 h₂
  have hx0 := FloatBody.value?_nonneg hx
  have hy0 := FloatBody.value?_nonneg hy
  have hread₁ := readFloat_finite heb heb' hmb hx hlen₁
  have hread₂ := readFloat_finite heb heb' hmb hy hlen₂
  refine ⟨fun hle x₁ x₂ hok₁ hok₂ => ?_, fun heq hsign => ?_, fun hle hacc => ?_⟩
  · rw [hread₁] at hok₁
    rw [hread₂] at hok₂
    split_ifs at hok₁ hok₂ with hlt₁ hlt₂
    obtain rfl := Except.ok.inj hok₁
    obtain rfl := Except.ok.inj hok₂
    exact le_pattern_nearestBits hx0 hy0 hlt₁ hlt₂ hle
  · obtain rfl : x = y := by
      rw [← abs_signed lit₁.isNegative hx0, heq, abs_signed lit₂.isNegative hy0]
    rw [hread₁, hread₂, hsign]
    split_ifs
    · exact Or.inl ⟨_, rfl, rfl⟩
    · exact Or.inr ⟨rfl, rfl⟩
  · rw [abs_signed _ hx0, abs_signed _ hy0] at hle
    rw [accepted_iff heb heb' hmb hy hlen₂] at hacc
    rw [accepted_iff heb heb' hmb hx hlen₁]
    exact (nearestBits_mono hx0 hle).trans_lt hacc

/-- Halfway between two values of single precision, `16_777_217.0`. -/
def decimalTie : FloatParts 10 Decimal.isExponentMark where
  whole := ⟨['1', '6', '_', '7', '7', '7', '_', '2', '1', '7'],
    .cons rfl (.separated rfl (.cons rfl (.cons rfl (.separated rfl (.cons rfl (.cons rfl
      (.single rfl)))))))⟩
  fraction := some (some ⟨['0'], .single rfl⟩)
  exponent := none

/-- The same number, `1.000001p24`. -/
def hexTie : FloatParts 16 isHexExponentMark where
  whole := ⟨['1'], isRun_one⟩
  fraction := some (some ⟨['0', '0', '0', '0', '0', '1'],
    .cons rfl (.cons rfl (.cons rfl (.cons rfl (.cons rfl (.single rfl)))))⟩)
  exponent := some ⟨'p', isHexExponentMark_p, none, ⟨['2', '4'], .cons rfl (.single rfl)⟩⟩

theorem value_decimalTie : decimalTie.value 10 = 16777217 := by
  have hwhole : Numeral.value 10 decimalTie.whole.1 = 16777217 := rfl
  have hfraction : Numeral.value 10 decimalTie.fractionDigits = 0 := rfl
  have hexponent : decimalTie.exponentValue = 0 := rfl
  rw [FloatParts.value, FloatParts.mantissa, hwhole, hfraction, hexponent]
  norm_num

theorem value_hexTie : hexTie.value 2 = 16777217 := by
  have hwhole : Numeral.value 16 hexTie.whole.1 = 1 := rfl
  have hfraction : Numeral.value 16 hexTie.fractionDigits = 1 := rfl
  have hcount : digitCount 16 hexTie.fractionDigits = 6 := rfl
  have hexponent : hexTie.exponentValue = (24 : ℕ) := rfl
  rw [FloatParts.value, FloatParts.mantissa, hwhole, hfraction, hcount, hexponent, zpow_natCast]
  norm_num

/-- The tie goes to the even neighbour in either notation. -/
theorem readFloat_order_tie :
    readFloat binary32 "-16_777_217.0" = .ok 0xCB800000#32 := by
  have hhex : readFloat binary32 "-0x1.000001p24" = .ok 0xCB800000#32 := by decide
  have h := (@readFloat_order binary32 (by decide) (by decide) (by decide)
    ⟨some .minus, .decimal decimalTie⟩ ⟨some .minus, .hex hexTie⟩ _ _ rfl rfl (by decide)
    (by decide)).2.1
  have hsame : (-decimalTie.value 10 : ℚ) = -hexTie.value 2 := by
    rw [value_decimalTie, value_hexTie]
  have hdecimal : FloatLiteral.text ⟨some .minus, .decimal decimalTie⟩ = "-16_777_217.0" := rfl
  have hhexText : FloatLiteral.text ⟨some .minus, .hex hexTie⟩ = "-0x1.000001p24" := rfl
  rw [hdecimal, hhexText] at h
  rcases h hsame rfl with ⟨x, hread, hequal⟩ | ⟨-, hlarge⟩
  · rw [hread, ← hequal, hhex]
  · rw [hhex] at hlarge
    cases hlarge

end Literal

end Lanewise
