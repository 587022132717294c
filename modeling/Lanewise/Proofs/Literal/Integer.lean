import Lanewise.Literal.Integer
import Lanewise.Proofs.Literal.Split

/-!
# Integer literals

An `IntegerLiteral` is a sign and the digits of a number in one of the two notations. A lane of
`bits` bits takes a literal if its number is in the range that its sign leaves it
(`IntegerLiteral.InRange`), and then holds the number or what two's complement makes of its
negative (`IntegerLiteral.bitsValue`).

`readInteger_eq_ok_iff` : the texts that are read are the texts of the literals in range, each
with the bits of its number. Every other text is refused as an invalid literal. Numbers are read
with 128 bits at most, which no number in range exceeds, however many zeros it starts with.
-/

namespace Lanewise

namespace Literal

open Numeral

/-! ## The grammar -/

/-- The digits of a number, hexadecimal after `0x`. -/
inductive IntegerDigits where
  | decimal (run : DigitRun 10)
  | hex (run : DigitRun 16)

namespace IntegerDigits

def toList : IntegerDigits → List Char
  | decimal run => run.1
  | hex run => '0' :: 'x' :: run.1

def number : IntegerDigits → ℕ
  | decimal run => value 10 run.1
  | hex run => value 16 run.1

end IntegerDigits

/-- An integer, `sign? 0x H` or `sign? D`. -/
structure IntegerLiteral where
  sign : Option Sign
  digits : IntegerDigits

namespace IntegerLiteral

variable (lit : IntegerLiteral) (bits : ℕ)

def toList : List Char :=
  signText lit.sign ++ lit.digits.toList

def text : String :=
  String.ofList lit.toList

/-- The range of the number : unsigned without a sign, else one half of two's complement. -/
def InRange : Prop :=
  match lit.sign with
  | none => lit.digits.number ≤ 2 ^ bits - 1
  | some .plus => lit.digits.number ≤ 2 ^ (bits - 1) - 1
  | some .minus => lit.digits.number ≤ 2 ^ (bits - 1)

/-- The number itself, or after a minus its negative modulo `2 ^ bits`. -/
def bitsValue : ℕ :=
  if lit.sign = some .minus then (2 ^ bits - lit.digits.number) % 2 ^ bits
  else lit.digits.number

end IntegerLiteral

/-! ## Its number -/

/-- The texts that are read as a magnitude are the digits of one of the two notations. -/
theorem readMagnitude_eq_ok_iff (body : List Char) (number : ℕ) :
    readMagnitude body = .ok number ↔
      ∃ digits : IntegerDigits, digits.toList = body ∧ number = digits.number ∧
        number < 2 ^ 128 := by
  constructor
  · intro h
    unfold readMagnitude at h
    split at h
    · obtain ⟨hrun, heq, hfits⟩ := (readDigits_eq_ok_iff isRadix_sixteen _ _).1 h
      exact ⟨.hex ⟨_, hrun⟩, rfl, heq, hfits⟩
    · obtain ⟨hrun, heq, hfits⟩ := (readDigits_eq_ok_iff isRadix_ten _ _).1 h
      exact ⟨.decimal ⟨_, hrun⟩, rfl, heq, hfits⟩
  · rintro ⟨digits, rfl, rfl, hfits⟩
    cases digits with
    | hex run => exact (readDigits_eq_ok_iff isRadix_sixteen _ _).2 ⟨run.2, rfl, hfits⟩
    | decimal run =>
      have hx : 'x' ∉ run.1 := run.2.not_mem (by decide)
      have hdecimal : readMagnitude run.1 = readDigits 10 run.1 := by
        unfold readMagnitude
        split
        · next heq => simp [heq] at hx
        · rfl
      rw [IntegerDigits.toList, hdecimal]
      exact (readDigits_eq_ok_iff isRadix_ten _ _).2 ⟨run.2, rfl, hfits⟩

namespace IntegerLiteral

variable (lit : IntegerLiteral) {bits : ℕ}

theorem splitSign_toList : splitSign lit.toList = (lit.sign, lit.digits.toList) := by
  unfold toList
  cases lit.digits with
  | decimal run => exact splitSign_isRun lit.sign run.2
  | hex run => exact splitSign_signText lit.sign _ (by decide) (by decide)

theorem inRange_iff : inRange bits lit.sign lit.digits.number = true ↔ lit.InRange bits := by
  have hall := Nat.two_pow_pos bits
  have hhalf := Nat.two_pow_pos (bits - 1)
  unfold inRange InRange
  cases lit.sign with
  | none => simp only [decide_eq_true_eq]; omega
  | some sign =>
    cases sign with
    | plus => simp only [decide_eq_true_eq]; omega
    | minus => simp only [decide_eq_true_eq]

/-- A number in range takes no more bits than the lane has. -/
theorem number_lt (hbits : 1 ≤ bits) (h : lit.InRange bits) : lit.digits.number < 2 ^ bits := by
  have hpos := Nat.two_pow_pos (bits - 1)
  have hdouble := Nat.two_pow_pred_mul_two hbits
  unfold InRange at h
  split at h <;> omega

theorem toNat_twosComplement (hbits : 1 ≤ bits) (h : lit.InRange bits) :
    (twosComplement bits lit.sign lit.digits.number).toNat = lit.bitsValue bits := by
  have hlt := lit.number_lt hbits h
  unfold twosComplement bitsValue
  split
  · next hsign =>
    rw [if_pos hsign, BitVec.toNat_neg, BitVec.toNat_ofNat, Nat.mod_eq_of_lt hlt]
  · next hsign =>
    rw [if_neg hsign, BitVec.toNat_ofNat, Nat.mod_eq_of_lt hlt]

end IntegerLiteral

/-! ## Reading -/

/-- A text is read as the bits of a literal in range that it is the text of. -/
theorem readIntegerChars_eq_ok_iff {bits : ℕ} (hbits : 1 ≤ bits) (hbits' : bits ≤ 64)
    (text : List Char) (p : BitVec bits) :
    readIntegerChars bits text = .ok p ↔
      ∃ lit : IntegerLiteral, lit.toList = text ∧ lit.InRange bits ∧
        p.toNat = lit.bitsValue bits := by
  constructor
  · intro h
    unfold readIntegerChars at h
    cases hread : readMagnitude (splitSign text).2 with
    | error e => simp [hread, bind, Except.bind] at h
    | ok number =>
      obtain ⟨digits, hdigits, rfl, -⟩ := (readMagnitude_eq_ok_iff _ _).1 hread
      simp only [hread, bind, Except.bind] at h
      split_ifs at h with hrange
      have hin := (IntegerLiteral.inRange_iff ⟨(splitSign text).1, digits⟩).1 hrange
      refine ⟨_, ?_, hin, ?_⟩
      · rw [IntegerLiteral.toList, hdigits, signText_splitSign]
      · rw [← Except.ok.inj h, ← IntegerLiteral.toNat_twosComplement _ hbits hin]
  · rintro ⟨lit, rfl, hin, hp⟩
    have hfits : lit.digits.number < 2 ^ 128 :=
      (lit.number_lt hbits hin).trans (Nat.pow_lt_pow_right Nat.one_lt_two (by omega))
    have hread := (readMagnitude_eq_ok_iff _ _).2 ⟨lit.digits, rfl, rfl, hfits⟩
    have hbits : p = twosComplement bits lit.sign lit.digits.number :=
      BitVec.eq_of_toNat_eq (hp.trans (lit.toNat_twosComplement hbits hin).symm)
    simp only [readIntegerChars, lit.splitSign_toList, hread, bind, Except.bind]
    rw [if_pos (lit.inRange_iff.2 hin), hbits]

/-- Exactly the literals in range are read, each as the bits of its number, and every other text
is refused. -/
theorem readInteger_eq_ok_iff {bits : ℕ} (hbits : 1 ≤ bits) (hbits' : bits ≤ 64) (text : String) :
    (∀ p : BitVec bits, readInteger bits text = .ok p ↔
      ∃ lit : IntegerLiteral, lit.text = text ∧ lit.InRange bits ∧
        p.toNat = lit.bitsValue bits) ∧
    ((¬∃ lit : IntegerLiteral, lit.text = text ∧ lit.InRange bits) →
      ∃ message, (readInteger bits text).mapError LiteralError.toError =
        .error ⟨.parse, Code.invalidLiteral, message⟩) := by
  have hiff : ∀ p : BitVec bits, readInteger bits text = .ok p ↔
      ∃ lit : IntegerLiteral, lit.text = text ∧ lit.InRange bits ∧
        p.toNat = lit.bitsValue bits := by
    intro p
    rw [readInteger, readIntegerChars_eq_ok_iff hbits hbits']
    simp only [IntegerLiteral.text, ofList_eq_iff]
  refine ⟨hiff, fun hnone => ?_⟩
  cases hread : readInteger bits text with
  | error e => exact ⟨e.message, rfl⟩
  | ok p =>
    obtain ⟨lit, htext, hin, -⟩ := (hiff p).1 hread
    exact absurd ⟨lit, htext, hin⟩ hnone

/-- The least byte, and the number that a byte with a sign no longer reaches. -/
theorem readInteger_eq_ok_iff_byte :
    readInteger 8 "-0x08_0" = .ok 0x80#8 ∧
      ∃ message, (readInteger 8 "+0x08_0").mapError LiteralError.toError =
        .error ⟨.parse, Code.invalidLiteral, message⟩ := by
  have hrun : IsRun 16 ['0', '8', '_', '0'] := .cons rfl (.separated rfl (.single rfl))
  constructor
  · refine ((readInteger_eq_ok_iff (by decide) (by decide) _).1 _).2
      ⟨⟨some .minus, .hex ⟨_, hrun⟩⟩, rfl, ?_, rfl⟩
    exact Nat.le_refl 128
  · refine (readInteger_eq_ok_iff (by decide) (by decide) _).2 ?_
    rintro ⟨lit, htext, hin⟩
    have hread := ((readInteger_eq_ok_iff (by decide) (by decide) _).1
      (twosComplement 8 lit.sign lit.digits.number)).2
        ⟨lit, htext, hin, lit.toNat_twosComplement (by decide) hin⟩
    have hrefused : readInteger 8 "+0x08_0" = .error .integerOutOfRange := by decide
    rw [hrefused] at hread
    cases hread

end Literal

end Lanewise
