import Lanewise.Proofs.Literal.HexFloat
import Lanewise.Proofs.Literal.Refusal

/-!
# The grammar of float literals

A `FloatLiteral` is a sign and one of the five forms of a `FloatBody`. Every text that is read is
the text of a literal (`exists_floatBody`), and a literal is refused only for its range
(`readFloatBody_toList`) : for a payload that is zero or does not fit the mantissa, or for a
finite value that rounds to infinity.

The value that counts is the one with the power of two that is read. A hexadecimal literal has its
power cut off at `exponentLimit` (`cutOff`). In texts of less than `2 ^ 28` characters that makes
no difference. In a longer one it can : `longOne` writes the number one with so many zeros and so
small a power that it is refused as too large.
-/

namespace Lanewise

namespace Literal

open Numeral Format

variable {fmt : Format}

/-! ## The grammar -/

/-- A float after its sign. -/
inductive FloatBody where
  | inf
  | nan
  | payload (run : DigitRun 16)
  | hex (parts : FloatParts 16 isHexExponentMark)
  | decimal (parts : FloatParts 10 Decimal.isExponentMark)

/-- A float, an optional sign in front of a body. -/
structure FloatLiteral where
  sign : Option Sign
  body : FloatBody

/-- A finite number is too large if rounding its significant bits alone takes it to the power of
two beyond the format. -/
def RoundsToInfinity (fmt : Format) (x : ℚ) : Prop :=
  (2 : ℚ) ^ ((fmt.bias : ℤ) + 1) ≤ roundSignificant (fmt.mantissaBits + 1) x

namespace FloatBody

def toList : FloatBody → List Char
  | inf => ['i', 'n', 'f']
  | nan => ['n', 'a', 'n']
  | payload run => 'n' :: 'a' :: 'n' :: ':' :: '0' :: 'x' :: run.1
  | hex parts => '0' :: 'x' :: parts.toList
  | decimal parts => parts.toList

/-- The ranges of a payload and of a finite value, for a way to read the power of two. -/
def OutOfRange (fmt : Format) (power : ℤ → ℤ) : FloatBody → Prop
  | inf | nan => False
  | payload run => Numeral.value 16 run.1 = 0 ∨ 2 ^ fmt.mantissaBits ≤ Numeral.value 16 run.1
  | hex parts => RoundsToInfinity fmt (parts.mantissa * 2 ^ power parts.exponentValue)
  | decimal parts => RoundsToInfinity fmt (parts.value 10)

end FloatBody

namespace FloatLiteral

variable (lit : FloatLiteral)

def toList : List Char :=
  signText lit.sign ++ lit.body.toList

def text : String :=
  String.ofList lit.toList

theorem length_hexParts_lt {sign : Option Sign} {parts : FloatParts 16 isHexExponentMark} {n : ℕ}
    (h : (text ⟨sign, .hex parts⟩).length < n) : parts.toList.length < n := by
  simp only [text, String.length_ofList, toList, FloatBody.toList, List.length_append,
    List.length_cons] at h
  omega

end FloatLiteral

/-! ## Every text that is read is a literal -/

theorem exists_hexParts {text : List Char} {bits : ℕ} (h : readHexFloat fmt text = .ok bits) :
    ∃ parts : FloatParts 16 isHexExponentMark, parts.toList = text := by
  rcases hcut : cut isHexExponentMark text with ⟨mantissa, exponent?⟩
  rcases hpoint : cutPoint mantissa with ⟨whole, fraction?⟩
  simp only [readHexFloat, hcut, hpoint, bind_eq_ok_iff] at h
  obtain ⟨⟨⟩, hwhole, ⟨⟩, hfraction, h⟩ := h
  refine FloatParts.exists_of_cuts hcut hpoint ((checkDigits_eq_ok_iff _).1 hwhole)
    ((checkOptionalDigits_eq_ok_iff _).1 hfraction) ?_
  rintro written rfl
  obtain ⟨exponent, hexponent, -⟩ := bind_eq_ok_iff.1 h
  rw [readExponent] at hexponent
  obtain ⟨⟨⟩, hdigits, -⟩ := bind_eq_ok_iff.1 hexponent
  exact (checkDigits_eq_ok_iff _).1 hdigits

/-- Whatever the reader of decimals does, a text that is read has one of the five forms. -/
theorem exists_floatBody {reader : DecimalReader fmt} {text : List Char} {bits : ℕ}
    (h : readFloatBody reader text = .ok bits) : ∃ body : FloatBody, body.toList = text := by
  unfold readFloatBody at h
  split at h
  · exact ⟨.inf, rfl⟩
  · exact ⟨.nan, rfl⟩
  · rw [readPayload] at h
    obtain ⟨payload, hpayload, -⟩ := bind_eq_ok_iff.1 h
    exact ⟨.payload ⟨_, ((readDigits_eq_ok_iff isRadix_sixteen _ _).1 hpayload).1⟩, rfl⟩
  · obtain ⟨parts, rfl⟩ := exists_hexParts h
    exact ⟨.hex parts, rfl⟩
  · rw [readDecimalWith] at h
    obtain ⟨cleaned, hcleaned, -⟩ := bind_eq_ok_iff.1 h
    obtain ⟨parts, rfl, -⟩ := (cleanDecimal_eq_ok_iff _ _).1 hcleaned
    exact ⟨.decimal parts, rfl⟩

/-! ## A literal is refused for its range only -/

/-- A payload that takes more than 128 bits does not fit the mantissa either. -/
theorem readPayload_eq_error_iff (hmb : fmt.mantissaBits ≤ 128) (run : DigitRun 16) :
    (∃ e, readPayload fmt run.1 = .error e) ↔
      Numeral.value 16 run.1 = 0 ∨ 2 ^ fmt.mantissaBits ≤ Numeral.value 16 run.1 := by
  have hread := readDigits_of_isRun isRadix_sixteen run.2
  have hle : 2 ^ fmt.mantissaBits ≤ 2 ^ 128 := Nat.pow_le_pow_right Nat.two_pos hmb
  rw [readPayload, hread]
  by_cases hfits : Numeral.value 16 run.1 < 2 ^ 128
  · rw [if_pos hfits]
    simp only [bind, Except.bind]
    split_ifs with hrange <;> simp [hrange]
  · rw [if_neg hfits]
    exact iff_of_true ⟨_, rfl⟩ (Or.inr (hle.trans (not_lt.1 hfits)))

/-- A finite value is refused if it rounds to infinity. -/
theorem eq_error_iff_roundsToInfinity (heb : 2 ≤ fmt.exponentBits) {x : ℚ} (hx : 0 ≤ x)
    {result : Except LiteralError ℕ}
    (h : result = if fmt.nearestBits x < fmt.infinityBits then .ok (fmt.nearestBits x)
      else .error .floatOutOfRange) :
    (∃ e, result = .error e) ↔ RoundsToInfinity fmt x := by
  rw [RoundsToInfinity, ← infinityBits_le_nearestBits_iff heb hx, h]
  split_ifs with hlt
  · simpa using hlt
  · exact iff_of_true ⟨_, rfl⟩ (not_lt.1 hlt)

theorem readFloatBody_toList (heb : 2 ≤ fmt.exponentBits) (hmb : fmt.mantissaBits ≤ 63)
    (body : FloatBody) :
    (∃ e, readFloatBody (nearestDecimal fmt) body.toList = .error e) ↔
      body.OutOfRange fmt cutOff := by
  cases body with
  | inf => exact iff_of_false (by rintro ⟨e, ⟨⟩⟩) id
  | nan => exact iff_of_false (by rintro ⟨e, ⟨⟩⟩) id
  | payload run => exact readPayload_eq_error_iff (by omega) run
  | hex parts =>
    exact eq_error_iff_roundsToInfinity heb (parts.mantissa_mul_zpow_nonneg zero_le_two _)
      (readFloatBody_hexParts heb (by omega) _ parts)
  | decimal parts =>
    exact eq_error_iff_roundsToInfinity heb (parts.mantissa_mul_zpow_nonneg (by norm_num) _)
      (readFloatBody_decimal heb parts)

/-- In a text that is not too long, the cut of the power makes no difference. -/
theorem outOfRange_cutOff_iff (heb : 2 ≤ fmt.exponentBits) (heb' : fmt.exponentBits ≤ 30)
    (hmb : fmt.mantissaBits ≤ 63) (lit : FloatLiteral) (hlen : lit.text.length < 2 ^ 28) :
    lit.body.OutOfRange fmt cutOff ↔ lit.body.OutOfRange fmt id := by
  rcases lit with ⟨sign, body⟩
  cases body with
  | hex parts =>
    have hlist := FloatLiteral.length_hexParts_lt hlen
    have hnonneg (e : ℤ) : (0 : ℚ) ≤ parts.mantissa * 2 ^ e :=
      parts.mantissa_mul_zpow_nonneg zero_le_two e
    simp only [FloatBody.OutOfRange, RoundsToInfinity, id]
    rw [← infinityBits_le_nearestBits_iff heb (hnonneg _),
      ← infinityBits_le_nearestBits_iff heb (hnonneg _)]
    rcases parts.nearestBits_cutOff heb heb' hmb hlist parts.exponentValue with
      heq | ⟨hcut, hvalue⟩
    · rw [heq]
    · exact iff_of_true hcut hvalue
  | _ => exact Iff.rfl

/-! ## The whole text -/

theorem splitSign_toList (lit : FloatLiteral) :
    splitSign lit.toList = (lit.sign, lit.body.toList) := by
  rcases lit with ⟨sign, body⟩
  cases body with
  | decimal parts =>
    obtain ⟨rest, hrest⟩ := parts.exists_toList_eq
    rw [FloatLiteral.toList, FloatBody.toList, hrest]
    exact splitSign_isRun_append sign parts.whole.2 rest
  | _ => exact splitSign_signText sign _ (by decide) (by decide)

/-- A text is read if what follows its sign is. -/
theorem readFloatChars_eq (reader : DecimalReader fmt) (text : List Char) :
    readFloatChars reader text =
      (readFloatBody reader (splitSign text).2).map
        (fmt.pattern ((splitSign text).1 = some .minus)) := by
  unfold readFloatChars
  rcases splitSign text with ⟨sign, body⟩
  change readFloatBody reader body >>= _ = (readFloatBody reader body).map _
  cases readFloatBody reader body <;> rfl

/-- What is read of a literal is its body, with its sign in front. -/
theorem readFloatWith_literal (reader : DecimalReader fmt) (lit : FloatLiteral) :
    readFloatWith fmt reader lit.text =
      (readFloatBody reader lit.body.toList).map (fmt.pattern (lit.sign = some .minus)) := by
  rw [readFloatWith, FloatLiteral.text, String.toList_ofList, readFloatChars_eq,
    splitSign_toList]

theorem readFloatWith_eq_ok_iff {reader : DecimalReader fmt} {text : String} {x : fmt.Pattern} :
    readFloatWith fmt reader text = .ok x ↔
      ∃ bits, readFloatBody reader (splitSign text.toList).2 = .ok bits ∧
        fmt.pattern ((splitSign text.toList).1 = some .minus) bits = x := by
  rw [readFloatWith, readFloatChars_eq]
  cases readFloatBody reader (splitSign text.toList).2 <;> simp [Except.map]

theorem readFloatWith_eq_error_iff {reader : DecimalReader fmt} {text : String}
    {e : LiteralError} :
    readFloatWith fmt reader text = .error e ↔
      readFloatBody reader (splitSign text.toList).2 = .error e := by
  rw [readFloatWith, readFloatChars_eq]
  cases readFloatBody reader (splitSign text.toList).2 <;> simp [Except.map]

theorem pattern_true (fmt : Format) (bits : ℕ) :
    fmt.pattern true bits = fmt.signBit ||| fmt.pattern false bits := by
  simp [pattern]

theorem exists_floatLiteral {reader : DecimalReader fmt} {text : String} {x : fmt.Pattern}
    (h : readFloatWith fmt reader text = .ok x) : ∃ lit : FloatLiteral, lit.text = text := by
  obtain ⟨bits, hread, -⟩ := readFloatWith_eq_ok_iff.1 h
  obtain ⟨body, hbody⟩ := exists_floatBody hread
  refine ⟨⟨(splitSign text.toList).1, body⟩, ?_⟩
  rw [FloatLiteral.text, ofList_eq_iff, FloatLiteral.toList, hbody, signText_splitSign]

/-- A literal is refused exactly if its body is. -/
theorem readFloat_eq_error_iff (lit : FloatLiteral) :
    (∃ e, readFloat fmt lit.text = .error e) ↔
      ∃ e, readFloatBody (nearestDecimal fmt) lit.body.toList = .error e := by
  simp only [readFloat, readFloatWith_eq_error_iff, FloatLiteral.text, String.toList_ofList,
    splitSign_toList]

/-- A sign in front of a text without one sets the sign bit or changes nothing. -/
theorem readFloat_sign {text : String} (hsign : (splitSign text.toList).1 = none)
    {x : fmt.Pattern} (h : readFloat fmt text = .ok x) :
    readFloat fmt ("-" ++ text) = .ok (fmt.signBit ||| x) ∧
      readFloat fmt ("+" ++ text) = .ok x := by
  have hbody : (splitSign text.toList).2 = text.toList := by
    have hparts := signText_splitSign text.toList
    rwa [hsign] at hparts
  have hminus : splitSign ("-" ++ text).toList = (some .minus, text.toList) := by
    rw [String.toList_append]
    rfl
  have hplus : splitSign ("+" ++ text).toList = (some .plus, text.toList) := by
    rw [String.toList_append]
    rfl
  obtain ⟨bits, hread, rfl⟩ := readFloatWith_eq_ok_iff.1 h
  rw [hbody] at hread
  constructor
  · refine readFloatWith_eq_ok_iff.2 ⟨bits, by rw [hminus, hread], ?_⟩
    rw [hminus, hsign]
    exact pattern_true fmt bits
  · refine readFloatWith_eq_ok_iff.2 ⟨bits, by rw [hplus, hread], ?_⟩
    rw [hplus, hsign]
    rfl

/-- The texts that are read are literals. A literal is refused for its range only, no text is
refused as malformed, and a sign in front of a text without one acts on the sign bit alone. -/
theorem readFloat_grammar (heb : 2 ≤ fmt.exponentBits) (heb' : fmt.exponentBits ≤ 30)
    (hwidth : fmt.mantissaBits + fmt.exponentBits ≤ 63) (text : String) :
    (∀ x, readFloat fmt text = .ok x → ∃ lit : FloatLiteral, lit.text = text) ∧
    (∀ lit : FloatLiteral, lit.text = text →
      ((∃ e, readFloat fmt text = .error e) ↔ lit.body.OutOfRange fmt cutOff) ∧
      (text.length < 2 ^ 28 →
        (lit.body.OutOfRange fmt cutOff ↔ lit.body.OutOfRange fmt id))) ∧
    readFloat fmt text ≠ .error .malformedFloat ∧
    ((splitSign text.toList).1 = none → ∀ x, readFloat fmt text = .ok x →
      readFloat fmt ("-" ++ text) = .ok (fmt.signBit ||| x) ∧
        readFloat fmt ("+" ++ text) = .ok x) := by
  have hmb : fmt.mantissaBits ≤ 63 := by omega
  refine ⟨fun x h => exists_floatLiteral h, ?_, ?_, fun hsign x h => readFloat_sign hsign h⟩
  · rintro lit rfl
    exact ⟨(readFloat_eq_error_iff lit).trans (readFloatBody_toList heb hmb lit.body),
      outOfRange_cutOff_iff heb heb' hmb lit⟩
  · intro h
    exact explained_readFloatBody heb _ (readFloatWith_eq_error_iff.1 h)

theorem isRun_one : IsRun 16 ['1'] :=
  .single rfl

theorem isRun_128 : IsRun 10 ['1', '2', '8'] :=
  .cons rfl (.cons rfl (.single rfl))

theorem isHexExponentMark_p : isHexExponentMark 'p' = true :=
  rfl

/-- The first power of two beyond single precision, `1p128`. -/
def beyondBinary32 : FloatParts 16 isHexExponentMark where
  whole := ⟨['1'], isRun_one⟩
  fraction := none
  exponent := some ⟨'p', isHexExponentMark_p, none, ⟨['1', '2', '8'], isRun_128⟩⟩

theorem readFloat_grammar_binary32 :
    (∃ e, readFloat binary32 "0x1p128" = .error e) ∧
      readFloat binary32 "-nan:0x1" = .ok (binary32.signBit ||| 0x7F800001#32) := by
  constructor
  · refine ((@readFloat_grammar binary32 (by decide) (by decide) (by decide) "0x1p128").2.1
      ⟨none, .hex beyondBinary32⟩ rfl).1.2 (le_roundSignificant (le_of_eq ?_))
    have hwhole : Numeral.value 16 beyondBinary32.whole.1 = 1 := rfl
    have hmantissa : beyondBinary32.mantissa = 1 := by
      rw [FloatParts.mantissa_of_whole _ rfl, hwhole, Nat.cast_one]
    have hpower : cutOff beyondBinary32.exponentValue = (binary32.bias : ℤ) + 1 := by decide
    rw [hmantissa, hpower, one_mul]
  · exact ((@readFloat_grammar binary32 (by decide) (by decide) (by decide) "nan:0x1").2.2.2
      (by decide) 0x7F800001#32 (by decide)).1

/-! ## A text in which the cut matters -/

theorem isRun_one_zeros (zeros : ℕ) : IsRun 16 ('1' :: List.replicate zeros '0') := by
  refine isRun_of_forall (List.cons_ne_nil _ _) fun c hc => ?_
  rcases List.mem_cons.1 hc with rfl | hc
  · decide
  · rw [List.eq_of_mem_replicate hc]
    decide

theorem isRun_four_mul (zeros : ℕ) : IsRun 10 (least 10 (4 * zeros)) :=
  isRun_least isRadix_ten _

/-- The number one, as zeros and a power that takes them back : `1000p-12`. -/
def longOne (zeros : ℕ) : FloatParts 16 isHexExponentMark where
  whole := ⟨'1' :: List.replicate zeros '0', isRun_one_zeros zeros⟩
  fraction := none
  exponent := some ⟨'p', isHexExponentMark_p, some .minus,
    ⟨least 10 (4 * zeros), isRun_four_mul zeros⟩⟩

theorem value_zeros (zeros : ℕ) : Numeral.value 16 (List.replicate zeros '0') = 0 := by
  induction zeros with
  | zero => rfl
  | succ zeros ih =>
    rw [List.replicate_succ', value_append_singleton, ih]
    rfl

theorem digitCount_zeros (zeros : ℕ) : digitCount 16 (List.replicate zeros '0') = zeros := by
  rw [digitCount, List.countP_replicate, if_pos (by decide)]

theorem value_one_zeros (zeros : ℕ) :
    Numeral.value 16 ('1' :: List.replicate zeros '0') = 16 ^ zeros := by
  have hone : Numeral.value 16 ['1'] = 1 := rfl
  rw [← List.singleton_append, value_append, value_zeros, digitCount_zeros, hone, Nat.one_mul,
    Nat.add_zero]

theorem mantissa_longOne (zeros : ℕ) : (longOne zeros).mantissa = 2 ^ (4 * (zeros : ℤ)) := by
  have hwhole : Numeral.value 16 (longOne zeros).whole.1 = 16 ^ zeros := value_one_zeros zeros
  rw [FloatParts.mantissa_of_whole _ rfl, hwhole, zpow_mul, zpow_natCast]
  norm_num

theorem exponentValue_longOne (zeros : ℕ) : (longOne zeros).exponentValue = -(4 * (zeros : ℤ)) := by
  have h : (longOne zeros).exponentValue = -((Numeral.value 10 (least 10 (4 * zeros)) : ℕ) : ℤ) :=
    rfl
  rw [h, value_least isRadix_ten]
  push_cast
  rfl

/-- The literal writes the number one, but with enough zeros it is refused as too large. -/
theorem outOfRange_longOne (heb : 2 ≤ fmt.exponentBits) {zeros : ℕ}
    (hzeros : exponentLimit + fmt.bias + 1 ≤ 4 * zeros) :
    (FloatBody.hex (longOne zeros)).OutOfRange fmt cutOff ∧
      ¬(FloatBody.hex (longOne zeros)).OutOfRange fmt id := by
  have hbias := one_le_bias heb
  have hcut : cutOff (-(4 * (zeros : ℤ))) = -exponentLimit := by
    rw [cutOff]
    omega
  simp only [FloatBody.OutOfRange, RoundsToInfinity, mantissa_longOne, exponentValue_longOne, id,
    hcut, ← two_zpow_add]
  constructor
  · refine le_roundSignificant (two_zpow_le ?_)
    omega
  · have hone : (2 : ℚ) ^ (4 * (zeros : ℤ) + -(4 * (zeros : ℤ))) = 1 := by
      rw [add_neg_cancel, zpow_zero]
    have hround : roundSignificant (fmt.mantissaBits + 1) (1 : ℚ) ≤ 2 ^ (1 : ℤ) :=
      roundSignificant_le one_pos (by norm_num)
    have hlt : (2 : ℚ) ^ (1 : ℤ) < 2 ^ ((fmt.bias : ℤ) + 1) :=
      zpow_lt_zpow_right₀ one_lt_two (by omega)
    rw [hone, not_le]
    exact hround.trans_lt hlt

/-- Both precisions refuse the number one in a text of more than `2 ^ 29` characters. -/
theorem readFloat_longOne :
    ((∃ e, readFloat binary32 (FloatLiteral.text ⟨none, .hex (longOne (2 ^ 29 + 2 ^ 9))⟩) =
        .error e) ∧
      ¬(FloatBody.hex (longOne (2 ^ 29 + 2 ^ 9))).OutOfRange binary32 id) ∧
    (∃ e, readFloat binary64 (FloatLiteral.text ⟨none, .hex (longOne (2 ^ 29 + 2 ^ 9))⟩) =
        .error e) ∧
      ¬(FloatBody.hex (longOne (2 ^ 29 + 2 ^ 9))).OutOfRange binary64 id := by
  have hzeros32 : exponentLimit + binary32.bias + 1 ≤ 4 * (2 ^ 29 + 2 ^ 9) := by decide
  have hzeros64 : exponentLimit + binary64.bias + 1 ≤ 4 * (2 ^ 29 + 2 ^ 9) := by decide
  generalize 2 ^ 29 + 2 ^ 9 = zeros at hzeros32 hzeros64 ⊢
  obtain ⟨hcut32, hexact32⟩ := outOfRange_longOne (by decide) hzeros32
  obtain ⟨hcut64, hexact64⟩ := outOfRange_longOne (by decide) hzeros64
  refine ⟨⟨?_, hexact32⟩, ?_, hexact64⟩
  · rw [readFloat_eq_error_iff, readFloatBody_toList (by decide) (by decide)]
    exact hcut32
  · rw [readFloat_eq_error_iff, readFloatBody_toList (by decide) (by decide)]
    exact hcut64

end Literal

end Lanewise
