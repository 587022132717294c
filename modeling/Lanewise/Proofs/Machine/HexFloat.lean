import Lanewise.Proofs.Machine.Round

/-!
# Hexadecimal floats in machine words

A hexadecimal float of fewer than `2 ^ 59` characters is read in checked words as it is with
numbers of any size (`Machine.readHexFloat_eq`).

Each part of the reader has one bound. Byte offsets are at most four times the characters, and the
marks are single bytes, so every cut is between characters (`exists_cutParts`). The written
exponent is cut off at 31 bits (`readExponent_bounds`). While the digits are gathered the mantissa
has at most 124 bits and the exponent moves by at most four for each character (`WithinWords`) :
one character keeps this (`WithinWords.push`), so the whole mantissa does (`foldlM_push_eq`), and
what is gathered is within the bounds of `round_eq`.
-/

namespace Lanewise

namespace Machine

open Literal (HexAccumulator)

/-! ## Digits -/

/-- A product that overflows has no sum that fits. -/
theorem product?_bind_sum? (x y d : ℕ) : (product? 128 x y).bind (sum? 128 · d) =
    if x * y + d < 2 ^ 128 then some (x * y + d) else none := by
  by_cases hproduct : x * y < 2 ^ 128
  · rw [product?, if_pos hproduct, Option.bind_some, sum?]
  · rw [product?, if_neg hproduct, if_neg (by omega), Option.bind_none]

theorem scanDigits_eq (radix : ℕ) (text : List Char) (value : ℕ) (afterDigit : Bool) :
    scanDigits radix text value afterDigit = Literal.scanDigits radix text value afterDigit := by
  induction text generalizing value afterDigit with
  | nil => rfl
  | cons c text ih =>
    unfold scanDigits Literal.scanDigits
    simp only [ih, product?_bind_sum?]
    cases Numeral.digit? radix c with
    | none => rfl
    | some d =>
      by_cases hfits : value * radix + d < 2 ^ 128
      · simp only [hfits, if_true]
      · simp only [hfits, if_false]

theorem readDigits_eq (radix : ℕ) (text : List Char) :
    readDigits radix text = Literal.readDigits radix text := by
  rw [readDigits, Literal.readDigits, scanDigits_eq]

/-! ## The parts of a text -/

theorem length_cut (isMark : Char → Bool) (text : List Char) :
    (Literal.cut isMark text).1.length + ((Literal.cut isMark text).2.getD []).length ≤
      text.length := by
  rcases Literal.cut_cases isMark text with hcut | ⟨first, mark, rest, -, rfl, hcut⟩
  · simp [hcut]
  · simp [hcut]

/-- In a text of fewer than `2 ^ 59` characters the byte offsets are words of 64 bits. -/
theorem cutAt_of_length {isMark : Char → Bool} (hmark : ∀ c, isMark c = true → c.utf8Size = 1)
    {text : List Char} (hlength : text.length < 2 ^ 59) :
    cutAt isMark text = pure (Literal.cut isMark text) := by
  have hbytes := byteLength_le text
  exact cutAt_eq hmark (by omega)

theorem utf8Size_of_or {a b c : Char} (ha : a.utf8Size = 1) (hb : b.utf8Size = 1)
    (h : (c == a || c == b) = true) : c.utf8Size = 1 := by
  rw [Bool.or_eq_true, beq_iff_eq, beq_iff_eq] at h
  rcases h with rfl | rfl
  · exact ha
  · exact hb

/-- The parts are the same as without byte offsets, and no longer than the text. -/
theorem exists_cutParts {isMark : Char → Bool} (hmark : ∀ c, isMark c = true → c.utf8Size = 1)
    {text : List Char} (hlength : text.length < 2 ^ 59) :
    ∃ mantissa whole fraction? exponent?, Literal.cut isMark text = (mantissa, exponent?) ∧
      Literal.cutPoint mantissa = (whole, fraction?) ∧
      whole.length + (fraction?.getD []).length < 2 ^ 59 ∧
      cutParts isMark text = pure (whole, fraction?, exponent?) := by
  have hpoint (c : Char) (hc : (c == '.') = true) : c.utf8Size = 1 := by
    rw [beq_iff_eq.1 hc]
    rfl
  obtain ⟨⟨mantissa, exponent?⟩, hcut⟩ : ∃ parts, Literal.cut isMark text = parts := ⟨_, rfl⟩
  obtain ⟨⟨whole, fraction?⟩, hcutPoint⟩ : ∃ parts, Literal.cutPoint mantissa = parts := ⟨_, rfl⟩
  have hmantissa := length_cut isMark text
  have hwhole := length_cut (· == '.') mantissa
  rw [hcut] at hmantissa
  rw [← Literal.cutPoint, hcutPoint] at hwhole
  dsimp only at hmantissa hwhole
  refine ⟨mantissa, whole, fraction?, exponent?, hcut, hcutPoint, by omega, ?_⟩
  rw [cutParts, cutAt_of_length hmark hlength, hcut, pure_bind]
  dsimp only
  rw [cutAt_of_length hpoint (by omega), ← Literal.cutPoint, hcutPoint, pure_bind]

/-! ## The exponent -/

/-- The clamp of a machine is the limit of the exponent. -/
theorem clampExponent_eq (value : ℕ) :
    clampExponent value = (Nat.min value Literal.exponentLimit : ℕ) := by
  have hmin : Nat.min value Literal.exponentLimit = min value (2 ^ 31 - 1) := rfl
  simp only [clampExponent, greatestExponent, hmin]
  split_ifs <;> omega

/-- An exponent within the limit has a negative. -/
theorem signed_limit (sign : Option Sign) {magnitude : ℕ}
    (hle : magnitude ≤ Literal.exponentLimit) :
    (if sign = some .minus then signed (-(magnitude : ℤ)) else pure (magnitude : ℤ)) =
      pure (if sign = some .minus then -(magnitude : ℤ) else magnitude) := by
  have hlimit : Literal.exponentLimit = 2 ^ 31 - 1 := rfl
  split_ifs
  · exact signed_eq (by omega)
  · rfl

theorem readExponent_eq (text : List Char) :
    readExponent text = refusing (Literal.readExponent text) := by
  unfold readExponent Literal.readExponent
  rcases Literal.splitSign text with ⟨sign, digits⟩
  simp only [refusing_bind, readDigits_eq]
  congr 1
  funext _
  cases Literal.readDigits 10 digits with
  | error e => exact signed_limit sign le_rfl
  | ok value =>
    simp only [clampExponent_eq]
    exact signed_limit sign (Nat.min_le_right ..)

theorem readExponent_bounds {text : List Char} {exponent : ℤ}
    (h : Literal.readExponent text = .ok exponent) : -2 ^ 31 ≤ exponent ∧ exponent ≤ 2 ^ 31 := by
  have hlimit : Literal.exponentLimit = 2 ^ 31 - 1 := rfl
  unfold Literal.readExponent at h
  generalize Literal.splitSign text = parts at h
  obtain ⟨sign, digits⟩ := parts
  obtain ⟨-, -, h⟩ := Literal.bind_eq_ok_iff.1 h
  rw [← Except.ok.inj h]
  cases Literal.readDigits 10 digits with
  | error e => dsimp only; split_ifs <;> omega
  | ok value =>
    have hle : Nat.min value Literal.exponentLimit ≤ Literal.exponentLimit := Nat.min_le_right ..
    dsimp only
    split_ifs <;> omega

/-! ## The mantissa of a hexadecimal float -/

/-- After some characters : the mantissa has at most 124 bits, and the exponent moved by at most
four for each of them from a start in a signed word of 32 bits. -/
structure WithinWords (acc : HexAccumulator) (count : ℕ) : Prop where
  mantissa_lt : acc.mantissa < 2 ^ 124
  le_exponent : -(2 ^ 31 + 4 * count) ≤ acc.exponent
  exponent_le : acc.exponent ≤ 2 ^ 31 + 4 * count

section

variable {acc : HexAccumulator} {count : ℕ}

/-- One character moves neither number out of its word. -/
theorem WithinWords.push (h : WithinWords acc count) (isFraction : Bool) (c : Char) :
    WithinWords (HexAccumulator.push isFraction acc c) (count + 1) := by
  have hmantissa := h.mantissa_lt
  have hlow := h.le_exponent
  have hhigh := h.exponent_le
  unfold HexAccumulator.push
  cases hd : Numeral.digit? 16 c with
  | none => exact ⟨hmantissa, by dsimp only; omega, by dsimp only; omega⟩
  | some d =>
    have hd16 := Numeral.digit?_lt hd
    split_ifs <;> refine ⟨?_, ?_, ?_⟩ <;> simp only <;> omega

theorem push_eq (h : WithinWords acc count) (hcount : count < 2 ^ 59) (c : Char)
    (isFraction : Bool) :
    push acc (c, isFraction) = pure (HexAccumulator.push isFraction acc c) := by
  have hmantissa := h.mantissa_lt
  have hlow := h.le_exponent
  have hhigh := h.exponent_le
  unfold push HexAccumulator.push
  cases hd : Numeral.digit? 16 c with
  | none => rfl
  | some d =>
    have hd16 := Numeral.digit?_lt hd
    have hor : acc.mantissa * 2 ^ 4 ||| d = acc.mantissa * 16 + d := by
      rw [Nat.mul_comm, ← Nat.two_pow_add_eq_or_of_lt hd16, Nat.mul_comm]
    have hdown : signed (acc.exponent - 4) = pure (acc.exponent - 4) := signed_eq (by omega)
    have hup : signed (acc.exponent + 4) = pure (acc.exponent + 4) := signed_eq (by omega)
    simp only [shiftRight_eq (show 120 < 128 by omega), pure_bind, Nat.div_eq_zero_iff]
    by_cases hroom : acc.mantissa < 2 ^ 120
    · rw [if_pos (by omega), if_pos hroom, shiftLeft_eq (by omega) (by omega), pure_bind, hor]
      cases isFraction with
      | false => rfl
      | true => simp only [if_true, hdown, pure_bind]
    · rw [if_neg (by omega), if_neg hroom]
      cases isFraction with
      | false => simp only [Bool.false_eq_true, if_false, hup, pure_bind]
      | true => rfl

/-- By induction on the characters : each is read where the invariant holds of what came before. -/
theorem foldlM_push_eq (digits : List (Char × Bool)) (hcount : count + digits.length ≤ 2 ^ 59)
    (h : WithinWords acc count) :
    digits.foldlM push acc =
        pure (digits.foldl (fun acc digit => HexAccumulator.push digit.2 acc digit.1) acc) ∧
      WithinWords (digits.foldl (fun acc digit => HexAccumulator.push digit.2 acc digit.1) acc)
        (count + digits.length) := by
  induction digits generalizing acc count with
  | nil => exact ⟨rfl, h⟩
  | cons digit digits ih =>
    rw [List.length_cons] at hcount
    obtain ⟨hfold, hwithin⟩ := ih (by omega) (h.push digit.2 digit.1)
    rw [List.foldlM_cons, push_eq h (by omega), pure_bind, hfold, List.length_cons,
      Nat.add_comm digits.length, ← Nat.add_assoc]
    exact ⟨rfl, hwithin⟩

theorem ofDigits_eq {whole fraction : List Char}
    (hlength : whole.length + fraction.length ≤ 2 ^ 59) {exponent : ℤ}
    (hexponent : -2 ^ 31 ≤ exponent ∧ exponent ≤ 2 ^ 31) :
    ofDigits whole fraction exponent = pure (HexAccumulator.ofDigits whole fraction exponent) ∧
      WithinWords (HexAccumulator.ofDigits whole fraction exponent)
        (whole.length + fraction.length) := by
  have hstart : WithinWords ⟨0, exponent, false⟩ 0 :=
    ⟨by simp, by simpa using hexponent.1, by simpa using hexponent.2⟩
  have hrun := foldlM_push_eq (whole.map (·, false) ++ fraction.map (·, true))
    (by simpa using hlength) hstart
  simpa [ofDigits, HexAccumulator.ofDigits, List.foldl_append, List.foldl_map] using hrun

end

/-! ## The whole literal -/

section

variable {fmt : Format} (hwidth : fmt.mantissaBits + fmt.exponentBits ≤ 63)

include hwidth

theorem roundDigits_eq {whole fraction : List Char}
    (hlength : whole.length + fraction.length < 2 ^ 59) {exponent : ℤ}
    (hexponent : -2 ^ 31 ≤ exponent ∧ exponent ≤ 2 ^ 31) :
    roundDigits fmt whole fraction exponent =
      refusing (match (HexAccumulator.ofDigits whole fraction exponent).round fmt with
        | some bits => .ok bits
        | none => .error .floatOutOfRange) := by
  obtain ⟨hfold, hwithin⟩ := ofDigits_eq hlength.le hexponent
  have hlow := hwithin.le_exponent
  have hhigh := hwithin.exponent_le
  rw [roundDigits, hfold, pure_bind, round_eq hwidth hwithin.mantissa_lt (by omega), pure_bind,
    HexAccumulator.round]
  cases fmt.round _ _ _ <;> rfl

theorem readHexFloat_eq {text : List Char} (hlength : text.length < 2 ^ 59) :
    readHexFloat fmt text = refusing (Literal.readHexFloat fmt text) := by
  have hmark (c : Char) (hc : Literal.isHexExponentMark c = true) : c.utf8Size = 1 :=
    utf8Size_of_or (a := 'p') (b := 'P') rfl rfl hc
  obtain ⟨mantissa, whole, fraction?, exponent?, hcut, hpoint, hparts, hcutParts⟩ :=
    exists_cutParts hmark hlength
  rw [readHexFloat, hcutParts, pure_bind, Literal.readHexFloat, hcut]
  dsimp only
  rw [hpoint]
  simp only [refusing_bind]
  congr 1
  funext _
  congr 1
  funext _
  cases exponent? with
  | none => exact roundDigits_eq hwidth (by omega) (by omega)
  | some written =>
    simp only [readExponent_eq]
    cases hexponent : Literal.readExponent written with
    | error e => rfl
    | ok exponent => exact roundDigits_eq hwidth (by omega) (readExponent_bounds hexponent)

end

end Machine

end Lanewise
