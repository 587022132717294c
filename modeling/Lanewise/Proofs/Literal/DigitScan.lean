import Lanewise.Literal.HexFloat
import Lanewise.Proofs.Literal.Split

/-!
# The two scans of a digit run

`Literal.checkDigits` looks for digits only, `Literal.readDigits` also for their number, and gives
up as soon as that is too large. Up to there both take the same steps.

`IsRunStart` is what a scan can have behind it, and `Offends` where and why it stops. A scan
passes the start of a run with its number (`IsRunStart.scanRun_append`,
`IsRunStart.scanDigits_append`), and a text that is refused offends somewhere
(`checkDigits_eq_error_iff`). So both scans accept the same texts and refuse them for the same
reason, unless the number before that place is too large (`scans_agree`). In an exponent, which is
read after it was checked, no other error is left.
-/

namespace Lanewise

namespace Literal

open Numeral

variable {radix : ℕ} {before rest text : List Char} {afterDigit : Bool} {e : LiteralError}

/-! ## The start of a run -/

/-- Digits, and single separators after digits. The flag says whether the last character was a
digit. -/
inductive IsRunStart (radix : ℕ) : List Char → Bool → Prop
  | nil : IsRunStart radix [] false
  | digit {text : List Char} {afterDigit : Bool} {c : Char} :
      IsRunStart radix text afterDigit → IsDigit radix c → IsRunStart radix (text ++ [c]) true
  | separator {text : List Char} :
      IsRunStart radix text true → IsRunStart radix (text ++ ['_']) false

namespace IsRunStart

/-- A run takes the start of a run on to its own end. -/
theorem append_isRun {run : List Char} (hrun : IsRun radix run) {before : List Char}
    {afterDigit : Bool} (h : IsRunStart radix before afterDigit) :
    IsRunStart radix (before ++ run) true := by
  induction hrun generalizing before afterDigit with
  | single hc => exact h.digit hc
  | cons hc _ ih => simpa using ih (h.digit hc)
  | separated hc _ ih => simpa using ih (h.digit hc).separator

variable (h : IsRunStart radix before afterDigit)

include h

/-- The scan for digits passes the start of a run. -/
theorem scanRun_append (rest : List Char) :
    scanRun radix (before ++ rest) false = scanRun radix rest afterDigit := by
  induction h generalizing rest with
  | nil => rfl
  | digit _ hc ih => rw [List.append_assoc, ih, List.singleton_append, scanRun_cons_of_isDigit hc]
  | separator _ ih => rw [List.append_assoc, ih, List.singleton_append, scanRun_separator]

/-- The scan for a number passes it too, unless the number is too large. -/
theorem scanDigits_append (hradix : IsRadix radix) (rest : List Char) :
    scanDigits radix (before ++ rest) 0 false =
      if value radix before < 2 ^ 128 then scanDigits radix rest (value radix before) afterDigit
      else .error .integerOutOfRange := by
  induction h generalizing rest with
  | nil => rfl
  | @digit text _ c _ hc ih =>
    have hle : value radix text ≤ push radix (value radix text) c :=
      le_foldl_push hradix (value radix text) [c]
    rw [List.append_assoc, ih, List.singleton_append, scanDigits_cons_of_isDigit hc,
      value_append_singleton]
    by_cases hfits : value radix text < 2 ^ 128
    · rw [if_pos hfits]
    · rw [if_neg hfits, if_neg (by omega)]
  | separator _ ih =>
    rw [List.append_assoc, ih, List.singleton_append, value_append_singleton, push_separator,
      scanDigits_separator]

end IsRunStart

/-- The starts that end in a digit are the runs. -/
theorem isRunStart_true_iff : IsRunStart radix text true ↔ IsRun radix text := by
  constructor
  · intro h
    rw [← (scanRun_eq_ok_iff text).1]
    simpa [scanRun] using h.scanRun_append []
  · exact fun h => .append_isRun h .nil

/-! ## The place of an error -/

/-- The text before a place is the start of a run, and the character there, or the end of the text,
makes the whole no run. -/
inductive Offends (radix : ℕ) : List Char → List Char → LiteralError → Prop
  | missing : Offends radix [] [] .missingDigits
  | separator {before rest : List Char} :
      IsRunStart radix before false → Offends radix before ('_' :: rest) .misplacedSeparator
  | character {before rest : List Char} {afterDigit : Bool} {c : Char} :
      IsRunStart radix before afterDigit → ¬IsDigit radix c → c ≠ '_' →
        Offends radix before (c :: rest) .unexpectedCharacter
  | trailing {before : List Char} :
      IsRunStart radix before false → before ≠ [] → Offends radix before [] .misplacedSeparator

/-- The check reports the error of the place. -/
theorem Offends.checkDigits_append (h : Offends radix before rest e) :
    checkDigits radix (before ++ rest) = .error e := by
  cases h with
  | missing => rfl
  | separator hstart =>
    rw [checkDigits_of_ne_nil (by simp), hstart.scanRun_append, scanRun, if_pos rfl]
    rfl
  | character hstart hc hsep =>
    rw [checkDigits_of_ne_nil (by simp), hstart.scanRun_append, scanRun, if_neg hsep, if_neg hc]
  | trailing hstart hne =>
    rw [checkDigits_of_ne_nil (by simpa using hne), hstart.scanRun_append]
    rfl

/-- The reader reports the same error, unless the number before the place is too large. -/
theorem Offends.readDigits_append (hradix : IsRadix radix) (h : Offends radix before rest e) :
    readDigits radix (before ++ rest) =
      .error (if value radix before < 2 ^ 128 then e else .integerOutOfRange) := by
  cases h with
  | missing => rfl
  | separator hstart =>
    rw [readDigits_of_ne_nil (by simp), hstart.scanDigits_append hradix, scanDigits, if_pos rfl,
      if_neg Bool.false_ne_true]
    split_ifs <;> rfl
  | character hstart hc hsep =>
    rw [readDigits_of_ne_nil (by simp), hstart.scanDigits_append hradix, scanDigits, if_neg hsep,
      Option.not_isSome_iff_eq_none.1 hc]
    split_ifs <;> rfl
  | trailing hstart hne =>
    rw [readDigits_of_ne_nil (by simpa using hne), hstart.scanDigits_append hradix, scanDigits,
      if_neg Bool.false_ne_true]
    split_ifs <;> rfl

/-- A scan that stops with an error stops at an offending place. The induction is on what it has
still ahead. -/
theorem exists_offends_of_scanRun (h : scanRun radix rest afterDigit = .error e)
    (hstart : IsRunStart radix before afterDigit) (hne : before ++ rest ≠ []) :
    ∃ before' rest', before' ++ rest' = before ++ rest ∧ Offends radix before' rest' e := by
  induction rest generalizing before afterDigit with
  | nil =>
    cases afterDigit with
    | true => simp [scanRun] at h
    | false =>
      obtain rfl : LiteralError.misplacedSeparator = e := by simpa [scanRun] using h
      exact ⟨before, [], rfl, .trailing hstart (by simpa using hne)⟩
  | cons c rest ih =>
    have hassoc : (before ++ [c]) ++ rest = before ++ c :: rest := by simp
    rw [← hassoc]
    unfold scanRun at h
    split_ifs at h with hsep hafter hdigit
    · subst hsep hafter
      exact ih h hstart.separator (by simp)
    · obtain rfl := Except.error.inj h
      obtain rfl := Bool.eq_false_iff.2 hafter
      subst hsep
      exact ⟨before, _, hassoc.symm, .separator hstart⟩
    · exact ih h (hstart.digit hdigit) (by simp)
    · obtain rfl := Except.error.inj h
      exact ⟨before, _, hassoc.symm, .character hstart hdigit hsep⟩

/-- The texts that are refused are those with an offending place. -/
theorem checkDigits_eq_error_iff (text : List Char) (e : LiteralError) :
    checkDigits radix text = .error e ↔
      ∃ before rest, before ++ rest = text ∧ Offends radix before rest e := by
  constructor
  · intro h
    by_cases hnil : text = []
    · subst hnil
      obtain rfl := Except.error.inj h
      exact ⟨[], [], rfl, .missing⟩
    · rw [checkDigits_of_ne_nil hnil] at h
      exact exists_offends_of_scanRun h .nil hnil
  · rintro ⟨before, rest, rfl, h⟩
    exact h.checkDigits_append

/-! ## Both scans -/

/-- A run that is not read has a number that is too large. -/
theorem readDigits_eq_error_of_checkDigits (hradix : IsRadix radix)
    (hcheck : checkDigits radix text = .ok ()) (hread : readDigits radix text = .error e) :
    e = .integerOutOfRange ∧ 2 ^ 128 ≤ value radix text := by
  rw [readDigits_of_isRun hradix ((checkDigits_eq_ok_iff text).1 hcheck)] at hread
  split_ifs at hread with hfits
  exact ⟨(Except.error.inj hread).symm, not_lt.1 hfits⟩

/-- The two scans of a text agree. A number is read exactly from a run whose number fits, and is
its number. A run that is not read has a number that does not fit, and is refused for that. A text
that is no run offends somewhere, and is refused for that by both, except that the reader stops for
a number before that place which does not fit. So an exponent that is read although the reader of
its number failed has a number that does not fit. -/
theorem scans_agree (hradix : IsRadix radix) (text : List Char) :
    (∀ number, readDigits radix text = .ok number ↔
      checkDigits radix text = .ok () ∧ value radix text = number ∧ number < 2 ^ 128) ∧
    (checkDigits radix text = .ok () → (¬∃ number, readDigits radix text = .ok number) →
      2 ^ 128 ≤ value radix text ∧ (readDigits radix text).mapError LiteralError.toError =
        .error ⟨.parse, Code.invalidLiteral, "integer literal out of range"⟩) ∧
    (∀ e, checkDigits radix text = .error e ↔
      ∃ before rest, before ++ rest = text ∧ Offends radix before rest e) ∧
    (∀ before rest e, before ++ rest = text → Offends radix before rest e →
      readDigits radix text =
        .error (if value radix before < 2 ^ 128 then e else .integerOutOfRange)) ∧
    ∀ exponent e, readExponent text = .ok exponent →
      readDigits 10 (splitSign text).2 = .error e →
        e = .integerOutOfRange ∧ 2 ^ 128 ≤ value 10 (splitSign text).2 := by
  refine ⟨fun number => ?_, fun hcheck hnone => ?_, checkDigits_eq_error_iff text, ?_, ?_⟩
  · rw [readDigits_eq_ok_iff hradix, checkDigits_eq_ok_iff, @eq_comm _ number]
  · cases hread : readDigits radix text with
    | ok number => exact absurd ⟨number, hread⟩ hnone
    | error e =>
      obtain ⟨rfl, hlarge⟩ := readDigits_eq_error_of_checkDigits hradix hcheck hread
      exact ⟨hlarge, rfl⟩
  · rintro before rest e rfl h
    exact h.readDigits_append hradix
  · intro exponent e hexponent hread
    rw [readExponent] at hexponent
    obtain ⟨⟨⟩, hcheck, -⟩ := bind_eq_ok_iff.1 hexponent
    exact readDigits_eq_error_of_checkDigits isRadix_ten hcheck hread

/-- The number `2 ^ 128` in front of a letter that is no digit : one scan stops at the letter, the
other at the number. -/
theorem scans_agree_tooLarge :
    checkDigits 16 ('1' :: List.replicate 32 '0' ++ ['g']) = .error .unexpectedCharacter ∧
      readDigits 16 ('1' :: List.replicate 32 '0' ++ ['g']) = .error .integerOutOfRange := by
  have hrun : IsRun 16 ('1' :: List.replicate 32 '0') :=
    (checkDigits_eq_ok_iff _).1 (by decide)
  have hoffends : Offends 16 ('1' :: List.replicate 32 '0') ['g'] .unexpectedCharacter :=
    .character (isRunStart_true_iff.2 hrun) (by decide) (by decide)
  have h := scans_agree isRadix_sixteen ('1' :: List.replicate 32 '0' ++ ['g'])
  exact ⟨(h.2.2.1 _).2 ⟨_, _, rfl, hoffends⟩, h.2.2.2.1 _ _ _ rfl hoffends⟩

end Literal

end Lanewise
