import Lanewise.Proofs.Literal.FloatClass
import Lanewise.Proofs.Machine.HexFloat

/-!
# Literals stay in their words

Integers of up to 64 bits (`Machine.readInteger_eq`) and floats of up to 64 bits
(`Machine.readFloat_eq`) are read in checked words as with numbers of any size, so no check ever
fails : the outcome is a value or the error of an invalid literal (`literals_stay_in_words`). Of the
bodies of a float only decimals depend on the reader that is given (`readFloatBody_cases`), and what
that reader returns is masked, so the outcome is of this kind for every reader.
-/

namespace Lanewise

namespace Machine

/-! ## Integers -/

theorem readMagnitude_eq (text : List Char) : readMagnitude text = Literal.readMagnitude text := by
  have hdigits : readDigits = Literal.readDigits := funext₂ readDigits_eq
  unfold readMagnitude
  rw [hdigits]
  rfl

section

variable {bits : ℕ} (hpos : 0 < bits) (hle : bits ≤ 64)

include hpos hle

theorem inRange_eq (sign : Option Sign) (magnitude : ℕ) :
    inRange bits sign magnitude = pure (Literal.inRange bits sign magnitude) := by
  have hone := Nat.two_pow_pos bits
  rw [inRange, sub_eq hpos, pure_bind, shiftLeft_one (by omega), pure_bind]
  match sign with
  | some .minus => rfl
  | some .plus => rfl
  | none =>
    simp only [lowMask_eq (show bits < 128 by omega), pure_bind, Literal.inRange]
    congr 1
    rw [decide_eq_decide]
    omega

/-- The negative of a word of 128 bits, masked, is the negative in the lane. -/
theorem twosComplement_eq {sign : Option Sign} {magnitude : ℕ}
    (hrange : Literal.inRange bits sign magnitude = true) :
    (if sign = some .minus then wrappingNeg 128 magnitude &&& (2 ^ bits - 1) else magnitude) =
      (Literal.twosComplement bits sign magnitude).toNat := by
  have hhalf : 2 ^ (bits - 1) < 2 ^ bits := Nat.pow_lt_pow_right Nat.one_lt_two (by omega)
  match sign with
  | some .minus =>
    rw [if_pos rfl, wrappingNeg, Nat.and_two_pow_sub_one_eq_mod, ← BitVec.toNat_setWidth,
      BitVec.setWidth_neg_of_le (by omega), BitVec.setWidth_ofNat_of_le (by omega)]
    rfl
  | some .plus =>
    have hlt : magnitude < 2 ^ (bits - 1) := of_decide_eq_true hrange
    exact (BitVec.toNat_ofNat .. |>.trans (Nat.mod_eq_of_lt (hlt.trans hhalf))).symm
  | none =>
    have hlt : magnitude < 2 ^ bits := of_decide_eq_true hrange
    exact (BitVec.toNat_ofNat .. |>.trans (Nat.mod_eq_of_lt hlt)).symm

/-- A lane of up to 64 bits is read without leaving the words. -/
theorem readInteger_eq (text : List Char) :
    readInteger bits text = refusing ((Literal.readIntegerChars bits text).map BitVec.toNat) := by
  unfold readInteger Literal.readIntegerChars
  rcases Literal.splitSign text with ⟨sign, body⟩
  simp only [readMagnitude_eq]
  cases Literal.readMagnitude body with
  | error e => rfl
  | ok magnitude =>
    rw [refusing_ok, pure_bind, inRange_eq hpos hle, pure_bind]
    change _ = refusing (Except.map BitVec.toNat (if Literal.inRange bits sign magnitude then
      .ok (Literal.twosComplement bits sign magnitude) else .error .integerOutOfRange))
    cases hrange : Literal.inRange bits sign magnitude with
    | false => rfl
    | true =>
      have hword : 2 ^ bits ≤ 2 ^ 64 := Nat.pow_le_pow_right Nat.two_pos hle
      rw [if_pos rfl, if_pos rfl, lowMask_eq (by omega), pure_bind,
        twosComplement_eq hpos hle hrange, narrow_eq ((BitVec.isLt _).trans_le hword)]
      rfl

end

/-! ## Outcomes -/

/-- A value, or the error of an invalid literal. -/
def IsAnswer {α : Type} (x : Checked α) : Prop :=
  (∃ a, x = .ok a) ∨
    ∃ e : LiteralError, x = .error (.refused e) ∧ e.toError = .invalidLiteral e.message

theorem isAnswer_refusing {α : Type} (result : Except LiteralError α) :
    IsAnswer (refusing result) := by
  cases result with
  | error e => exact Or.inr ⟨e, rfl, rfl⟩
  | ok a => exact Or.inl ⟨a, rfl⟩

theorem IsAnswer.bind {α β : Type} {x : Checked α} {f : α → Checked β} (hx : IsAnswer x)
    (hf : ∀ a, IsAnswer (f a)) : IsAnswer (x >>= f) := by
  rcases hx with ⟨a, rfl⟩ | ⟨e, rfl, he⟩
  · exact hf a
  · exact Or.inr ⟨e, rfl, he⟩

/-! ## Parts of a float -/

theorem length_splitSign_le (text : List Char) :
    (Literal.splitSign text).2.length ≤ text.length := by
  have hsplit := congrArg List.length (Literal.signText_splitSign text)
  rw [List.length_append] at hsplit
  omega

theorem cleanDecimal_eq {text : List Char} (hlength : text.length < 2 ^ 59) :
    cleanDecimal text = refusing (Literal.cleanDecimal text) := by
  have hmark (c : Char) (hc : Decimal.isExponentMark c = true) : c.utf8Size = 1 :=
    utf8Size_of_or (a := 'e') (b := 'E') rfl rfl hc
  obtain ⟨mantissa, whole, fraction?, exponent?, hcut, hpoint, -, hcutParts⟩ :=
    exists_cutParts hmark hlength
  rw [cleanDecimal, hcutParts, pure_bind, Literal.cleanDecimal, hcut]
  dsimp only
  rw [hpoint]
  simp only [refusing_bind]
  congr 1
  funext _
  congr 1
  funext _
  cases exponent? with
  | none => rfl
  | some written => rw [refusing_bind]; rfl

/-- The sign bit of a word with no higher bit is removed by its complement. -/
theorem and_complement {word n : ℕ} (hword : word < 2 ^ (n + 1)) (hn : n < 64) :
    word &&& complement 64 (2 ^ n) = word % 2 ^ n := by
  refine Nat.eq_of_testBit_eq fun i => ?_
  have hpow : 2 ^ n < 2 ^ 64 := Nat.pow_lt_pow_right Nat.one_lt_two hn
  rw [complement, Nat.testBit_and, Nat.testBit_two_pow_sub_succ hpow, Nat.testBit_two_pow,
    Nat.testBit_mod_two_pow]
  rcases Nat.lt_trichotomy i n with hlt | rfl | hgt
  · simp [hlt, hlt.ne', hlt.trans hn]
  · simp
  · have hhigh : word.testBit i = false :=
      Nat.testBit_lt_two_pow (hword.trans_le (Nat.pow_le_pow_right Nat.two_pos hgt))
    simp [hhigh]

/-- A reader of decimals with its patterns as words. -/
def wordReader {fmt : Format} (reader : Literal.DecimalReader fmt) : WordReader := fun text =>
  (reader text).map fun (x, infinite) => (x.setWidth 64, infinite)

theorem readFloatBody_lt {fmt : Format} {reader : Literal.DecimalReader fmt} {text : List Char}
    {bits : ℕ} (h : Literal.readFloatBody reader text = .ok bits) :
    bits < 2 ^ (fmt.exponentBits + fmt.mantissaBits) := by
  have hadd := fmt.infinityBits_add
  have hquiet := fmt.two_pow_quiet_lt
  have hpos := Nat.two_pow_pos fmt.mantissaBits
  unfold Literal.readFloatBody at h
  split at h
  · rw [← Except.ok.inj h]
    omega
  · rw [← Except.ok.inj h]
    omega
  · obtain ⟨payload, -, h⟩ := Literal.bind_eq_ok_iff.1 h
    split_ifs at h with hrange
    rw [← Except.ok.inj h]
    omega
  · obtain ⟨acc, hround⟩ := Literal.round_of_readHexFloat h
    have hle := Format.round_le_infinityBits hround
    omega
  · obtain ⟨cleaned, -, h⟩ := Literal.bind_eq_ok_iff.1 h
    split at h
    · cases h
    · cases h
    · next x _ =>
      rw [← Except.ok.inj h]
      exact Format.magnitude_lt x

/-- The sign bit in front of magnitude bits is that of the pattern. -/
theorem signBits_or {fmt : Format} (sign : Option Sign) {bits : ℕ}
    (h : bits < 2 ^ (fmt.exponentBits + fmt.mantissaBits)) :
    (if sign = some .minus then 2 ^ (fmt.exponentBits + fmt.mantissaBits) else 0) ||| bits =
      (fmt.pattern (sign = some .minus) bits).toNat := by
  rw [Format.toNat_pattern _ h]
  by_cases hsign : sign = some .minus
  · have hor := Nat.two_pow_add_eq_or_of_lt h 1
    simpa [hsign] using hor.symm
  · simp [hsign]

section

variable {fmt : Format} (hwidth : fmt.mantissaBits + fmt.exponentBits ≤ 63)

include hwidth

/-! ## Decimals and NaNs -/

theorem readDecimal_eq (reader : Literal.DecimalReader fmt) {text : List Char}
    (hlength : text.length < 2 ^ 59) :
    readDecimal fmt (wordReader reader) text = refusing (Literal.readDecimalWith reader text) := by
  rw [readDecimal, Literal.readDecimalWith, cleanDecimal_eq hlength, refusing_bind]
  congr 1
  funext cleaned
  rw [wordReader]
  rcases reader cleaned with _ | ⟨x, _ | _⟩
  · rfl
  · have hword : x.toNat < 2 ^ (fmt.exponentBits + fmt.mantissaBits + 1) := by
      rw [Nat.pow_succ', ← fmt.two_pow_width]
      exact x.isLt
    have hwide : (x.setWidth 64).toNat = x.toNat :=
      BitVec.toNat_setWidth_of_le (by rw [Format.width]; omega)
    have hmagnitude : (x.setWidth 64).toNat &&&
        complement 64 (2 ^ (fmt.exponentBits + fmt.mantissaBits)) = Format.magnitude x := by
      rw [hwide, and_complement hword (by omega), Format.magnitude]
    simp only [Option.map_some, signBit_eq hwidth, pure_bind, hmagnitude]
    rfl
  · rfl

theorem readPayload_eq (text : List Char) :
    readPayload fmt text = refusing (Literal.readPayload fmt text) := by
  rw [readPayload, Literal.readPayload, readDigits_eq, refusing_bind]
  congr 1
  funext payload
  have hone := Nat.two_pow_pos fmt.mantissaBits
  rw [mantissaMask_eq hwidth, pure_bind]
  by_cases hrange : payload = 0 ∨ 2 ^ fmt.mantissaBits ≤ payload
  · rw [if_pos (by omega), if_pos hrange]
    rfl
  · have hpow : 2 ^ fmt.mantissaBits < 2 ^ 64 := Nat.pow_lt_pow_right Nat.one_lt_two (by omega)
    rw [if_neg (by omega), if_neg hrange, exponentMask_eq hwidth, pure_bind,
      narrow_eq (by omega), pure_bind, infinityBits_or (by omega)]
    rfl

/-! ## Bodies of a float -/

/-- Only decimals depend on the reader. -/
theorem readFloatBody_cases (words : WordReader) (reader : Literal.DecimalReader fmt)
    {text : List Char} (hlength : text.length < 2 ^ 59) :
    readFloatBody fmt words text = refusing (Literal.readFloatBody reader text) ∨
      readFloatBody fmt words text = readDecimal fmt words text ∧
        Literal.readFloatBody reader text = Literal.readDecimalWith reader text := by
  unfold readFloatBody
  split
  · exact Or.inl (exponentMask_eq hwidth)
  · exact Or.inl (canonicalNaN_eq hwidth)
  · exact Or.inl (readPayload_eq hwidth _)
  · exact Or.inl (readHexFloat_eq hwidth (by simp only [List.length_cons] at hlength; omega))
  · next hinf hnan hpayload hhex =>
    refine Or.inr ⟨rfl, ?_⟩
    unfold Literal.readFloatBody
    split
    · exact absurd rfl hinf
    · exact absurd rfl hnan
    · exact absurd rfl (hpayload _)
    · exact absurd rfl (hhex _)
    · rfl

theorem readFloatBody_eq (reader : Literal.DecimalReader fmt) {text : List Char}
    (hlength : text.length < 2 ^ 59) :
    readFloatBody fmt (wordReader reader) text = refusing (Literal.readFloatBody reader text) := by
  rcases readFloatBody_cases hwidth (wordReader reader) reader hlength with h | ⟨hdecimal, h⟩
  · exact h
  · rw [hdecimal, h, readDecimal_eq hwidth reader hlength]

/-! ## Floats -/

theorem signBits_eq (sign : Option Sign) : signBits fmt sign =
    pure (if sign = some .minus then 2 ^ (fmt.exponentBits + fmt.mantissaBits) else 0) := by
  rw [signBits, signBit_eq hwidth]
  split_ifs <;> rfl

/-- A float of up to 64 bits is read without leaving the words. -/
theorem readFloat_eq (reader : Literal.DecimalReader fmt) {text : List Char}
    (hlength : text.length < 2 ^ 59) :
    readFloat fmt (wordReader reader) text =
      refusing ((Literal.readFloatChars reader text).map BitVec.toNat) := by
  have hbody := (length_splitSign_le text).trans_lt hlength
  unfold readFloat Literal.readFloatChars
  generalize Literal.splitSign text = parts at hbody ⊢
  obtain ⟨sign, body⟩ := parts
  dsimp only at hbody ⊢
  rw [signBits_eq hwidth, pure_bind, readFloatBody_eq hwidth reader hbody]
  cases hbits : Literal.readFloatBody reader body with
  | error e => rfl
  | ok bits =>
    rw [refusing_ok, pure_bind, signBits_or sign (readFloatBody_lt hbits)]
    rfl

/-- Whatever word a reader of decimals returns, its sign bit can be masked. -/
theorem isAnswer_readDecimal (words : WordReader) {text : List Char}
    (hlength : text.length < 2 ^ 59) : IsAnswer (readDecimal fmt words text) := by
  rw [readDecimal, cleanDecimal_eq hlength]
  refine (isAnswer_refusing _).bind fun cleaned => ?_
  match words cleaned with
  | none => exact isAnswer_refusing (.error .malformedFloat)
  | some (_, true) => exact isAnswer_refusing (.error .floatOutOfRange)
  | some (word, false) =>
    simp only [signBit_eq hwidth, pure_bind]
    exact isAnswer_refusing (.ok _)

theorem isAnswer_readFloat (words : WordReader) {text : List Char}
    (hlength : text.length < 2 ^ 59) : IsAnswer (readFloat fmt words text) := by
  have hbody := (length_splitSign_le text).trans_lt hlength
  unfold readFloat
  generalize Literal.splitSign text = parts at hbody ⊢
  obtain ⟨sign, body⟩ := parts
  dsimp only at hbody ⊢
  have hanswer : IsAnswer (readFloatBody fmt words body) := by
    rcases readFloatBody_cases hwidth words (fun _ => none) hbody with h | ⟨h, -⟩
    · rw [h]
      exact isAnswer_refusing _
    · rw [h]
      exact isAnswer_readDecimal hwidth words hbody
  rw [signBits_eq hwidth, pure_bind]
  exact hanswer.bind fun bits => isAnswer_refusing (.ok _)

end

/-- The readers of literals never leave their words. On a text of fewer than `2 ^ 59` characters, a
lane of up to 64 bits and a format of up to 63 bits below its sign, an integer and a float are read
in checked words as they are with numbers of any size : the outcome is a value or the error of an
invalid literal, also for a reader of decimals that returns arbitrary words. -/
theorem literals_stay_in_words {text : String} (hlength : text.length < 2 ^ 59) :
    (∀ bits, 0 < bits → bits ≤ 64 →
      readInteger bits text.toList = refusing ((Literal.readInteger bits text).map BitVec.toNat) ∧
        IsAnswer (readInteger bits text.toList)) ∧
    ∀ fmt : Format, fmt.mantissaBits + fmt.exponentBits ≤ 63 →
      (∀ words : WordReader, IsAnswer (readFloat fmt words text.toList)) ∧
      ∀ reader : Literal.DecimalReader fmt, readFloat fmt (wordReader reader) text.toList =
        refusing ((Literal.readFloatWith fmt reader text).map BitVec.toNat) := by
  have hchars : text.toList.length < 2 ^ 59 := by rwa [String.length_toList]
  refine ⟨fun bits hpos hle => ⟨?_, ?_⟩, fun fmt hwidth => ⟨fun words => ?_, fun reader => ?_⟩⟩
  · exact readInteger_eq hpos hle text.toList
  · rw [readInteger_eq hpos hle]
    exact isAnswer_refusing _
  · exact isAnswer_readFloat hwidth words hchars
  · exact readFloat_eq hwidth reader hchars

/-- The least lane of 8 bits, a hexadecimal float, and a text with a character of two bytes at the
place of a digit. -/
theorem literals_stay_in_words_minus :
    "-128".length < 2 ^ 59 ∧ readInteger 8 "-128".toList = .ok 0x80 ∧
      readFloat .binary32 (wordReader (Literal.nearestDecimal .binary32)) "-0x1.8p1".toList =
        .ok 0xC0400000 ∧
      IsAnswer (readFloat .binary64 (fun _ => none) "1.éE5".toList) := by
  have hinteger : "-128".length < 2 ^ 59 := by decide
  have hfloat : "-0x1.8p1".length < 2 ^ 59 := by decide
  refine ⟨hinteger, ?_, ?_, ?_⟩
  · rw [((literals_stay_in_words hinteger).1 8 (by decide) (by decide)).1]
    rfl
  · rw [((literals_stay_in_words hfloat).2 .binary32 (by decide)).2]
    rfl
  · exact ((literals_stay_in_words (by decide)).2 .binary64 (by decide)).1 _

end Machine

end Lanewise
