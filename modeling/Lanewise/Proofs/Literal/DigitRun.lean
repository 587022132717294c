import Mathlib.Tactic.Ring
import Lanewise.Literal.Digits

/-!
# Digit runs

`IsRun` is the grammar of a digit run : digits, with single separators between two of them. It
is what `Literal.checkDigits` accepts (`checkDigits_eq_ok_iff`), and `Literal.readDigits`
returns its number unless that takes more than 128 bits (`readDigits_eq_ok_iff`).

The number of two runs in a row is the number of the first moved up by the digits of the second
(`value_append`), and a number is below the power of the radix that its digits count
(`value_lt`).
-/

namespace Lanewise

namespace Numeral

variable {radix : ℕ}

/-- A radix whose digits have characters. -/
structure IsRadix (radix : ℕ) : Prop where
  one_lt : 1 < radix
  le_sixteen : radix ≤ 16

theorem IsRadix.pos (h : IsRadix radix) : 0 < radix :=
  Nat.zero_lt_of_lt h.one_lt

theorem isRadix_ten : IsRadix 10 :=
  ⟨by decide, by decide⟩

theorem isRadix_sixteen : IsRadix 16 :=
  ⟨by decide, by decide⟩

/-! ## The number of digits in a row -/

/-- The characters of a text that are digits, counted. -/
def digitCount (radix : ℕ) (text : List Char) : ℕ :=
  text.countP fun c => (digit? radix c).isSome

theorem digitCount_cons (c : Char) (text : List Char) :
    digitCount radix (c :: text) =
      digitCount radix text + if (digit? radix c).isSome then 1 else 0 :=
  List.countP_cons

theorem digitCount_append (text rest : List Char) :
    digitCount radix (text ++ rest) = digitCount radix text + digitCount radix rest :=
  List.countP_append

theorem digitCount_le_length (radix : ℕ) (text : List Char) : digitCount radix text ≤ text.length :=
  List.countP_le_length

/-- Reading on from a number moves it up by the digits that follow. -/
theorem foldl_push (text : List Char) (start : ℕ) :
    text.foldl (push radix) start = start * radix ^ digitCount radix text + value radix text := by
  induction text generalizing start with
  | nil => simp [digitCount, value]
  | cons c text ih =>
    rw [value, List.foldl_cons, List.foldl_cons, ih, ih (push radix 0 c), digitCount_cons]
    cases hd : digit? radix c with
    | none => simp [push, hd]
    | some d =>
      simp only [push, hd, Option.isSome_some, if_true]
      ring

theorem value_append (text rest : List Char) :
    value radix (text ++ rest) =
      value radix text * radix ^ digitCount radix rest + value radix rest := by
  rw [value, List.foldl_append, ← value, foldl_push]

theorem value_lt (radix : ℕ) (text : List Char) :
    value radix text < radix ^ digitCount radix text := by
  induction text with
  | nil => simp [digitCount, value]
  | cons c text ih =>
    rw [value, List.foldl_cons, foldl_push, digitCount_cons]
    cases hd : digit? radix c with
    | none => simpa [push, hd] using ih
    | some d =>
      have hlt := digit?_lt hd
      simp only [push, hd, Option.isSome_some, if_true, Nat.zero_mul, Nat.zero_add]
      rw [Nat.pow_succ']
      calc d * radix ^ digitCount radix text + value radix text
          < d * radix ^ digitCount radix text + radix ^ digitCount radix text :=
            Nat.add_lt_add_left ih _
        _ = (d + 1) * radix ^ digitCount radix text := by ring
        _ ≤ radix * radix ^ digitCount radix text := Nat.mul_le_mul_right _ hlt

end Numeral

namespace Literal

open Numeral

/-! ## The grammar -/

/-- A character that is a digit of the radix. -/
abbrev IsDigit (radix : ℕ) (c : Char) : Prop :=
  (digit? radix c).isSome = true

/-- A nonempty run of digits with single separators between digits. -/
inductive IsRun (radix : ℕ) : List Char → Prop
  | single {c : Char} : IsDigit radix c → IsRun radix [c]
  | cons {c : Char} {text : List Char} :
      IsDigit radix c → IsRun radix text → IsRun radix (c :: text)
  | separated {c : Char} {text : List Char} :
      IsDigit radix c → IsRun radix text → IsRun radix (c :: '_' :: text)

/-- A digit run of a radix. -/
abbrev DigitRun (radix : ℕ) : Type :=
  {text : List Char // IsRun radix text}

variable {radix : ℕ} {text : List Char}

theorem not_isDigit_separator : ¬IsDigit radix '_' := by
  simp [IsDigit, digit?, hexDigit?]

/-- A separator leaves the number as it is. -/
theorem push_separator (radix start : ℕ) : push radix start '_' = start := by
  have hnone : ¬IsDigit radix '_' := not_isDigit_separator
  simp only [IsDigit, Option.not_isSome_iff_eq_none] at hnone
  simp [push, hnone]

theorem not_isDigit_point : ¬(IsDigit radix '.' ∨ '.' = '_') := by
  simp [IsDigit, digit?, hexDigit?]

theorem IsDigit.ne_separator {c : Char} (h : IsDigit radix c) : c ≠ '_' := by
  rintro rfl
  exact not_isDigit_separator h

/-- A digit of a radix is a digit of any greater one. -/
theorem IsDigit.mono {greater : ℕ} {c : Char} (h : IsDigit radix c) (hle : radix ≤ greater) :
    IsDigit greater c := by
  obtain ⟨d, hd⟩ := Option.isSome_iff_exists.1 h
  have hlt := digit?_lt hd
  have hhex := (Option.filter_eq_some_iff.1 hd).1
  rw [IsDigit, digit?, hhex, Option.filter_some, if_pos (decide_eq_true (hlt.trans_le hle))]
  rfl

namespace IsRun

theorem ne_nil (h : IsRun radix text) : text ≠ [] := by
  cases h <;> simp

/-- A run starts with a digit. -/
theorem exists_cons (h : IsRun radix text) : ∃ c rest, text = c :: rest ∧ IsDigit radix c := by
  cases h with
  | single hc => exact ⟨_, _, rfl, hc⟩
  | cons hc _ => exact ⟨_, _, rfl, hc⟩
  | separated hc _ => exact ⟨_, _, rfl, hc⟩

/-- No character but digits and separators is in a run. -/
theorem not_mem {m : Char} (h : IsRun radix text) (hm : ¬(IsDigit radix m ∨ m = '_')) :
    m ∉ text := by
  obtain ⟨hdigit, hsep⟩ := not_or.1 hm
  induction h with
  | single hc =>
    rw [List.mem_singleton]
    rintro rfl
    exact hdigit hc
  | cons hc _ ih =>
    rw [List.mem_cons, not_or]
    exact ⟨by rintro rfl; exact hdigit hc, ih⟩
  | separated hc _ ih =>
    rw [List.mem_cons, List.mem_cons, not_or, not_or]
    exact ⟨by rintro rfl; exact hdigit hc, hsep, ih⟩

end IsRun

/-! ## Runs of any length -/

theorem checkDigits_of_ne_nil (h : text ≠ []) :
    checkDigits radix text = scanRun radix text false := by
  rw [checkDigits, if_neg (by simpa using h)]

theorem readDigits_of_ne_nil (h : text ≠ []) :
    readDigits radix text = scanDigits radix text 0 false := by
  rw [readDigits, if_neg (by simpa using h)]

theorem scanRun_cons_of_isDigit {c : Char} (h : IsDigit radix c) (afterDigit : Bool) :
    scanRun radix (c :: text) afterDigit = scanRun radix text true := by
  rw [scanRun, if_neg h.ne_separator, if_pos h]

/-- After a digit, a separator is passed. -/
theorem scanRun_separator (text : List Char) :
    scanRun radix ('_' :: text) true = scanRun radix text false := by
  rw [scanRun, if_pos rfl, if_pos rfl]

/-- What may follow a digit : nothing, more digits, or a separator and more digits. -/
def IsTail (radix : ℕ) (text : List Char) : Prop :=
  text = [] ∨ IsRun radix text ∨ ∃ rest, text = '_' :: rest ∧ IsRun radix rest

theorem isRun_cons_iff {c : Char} :
    IsRun radix (c :: text) ↔ IsDigit radix c ∧ IsTail radix text := by
  constructor
  · intro h
    cases h with
    | single hc => exact ⟨hc, Or.inl rfl⟩
    | cons hc h => exact ⟨hc, Or.inr (Or.inl h)⟩
    | separated hc h => exact ⟨hc, Or.inr (Or.inr ⟨_, rfl, h⟩)⟩
  · rintro ⟨hc, rfl | h | ⟨rest, rfl, h⟩⟩
    · exact .single hc
    · exact .cons hc h
    · exact .separated hc h

theorem isTail_cons_iff {c : Char} :
    IsTail radix (c :: text) ↔ IsRun radix (c :: text) ∨ c = '_' ∧ IsRun radix text := by
  constructor
  · rintro (h | h | ⟨rest, heq, h⟩)
    · cases h
    · exact Or.inl h
    · cases heq
      exact Or.inr ⟨rfl, h⟩
  · rintro (h | ⟨rfl, h⟩)
    · exact Or.inr (Or.inl h)
    · exact Or.inr (Or.inr ⟨text, rfl, h⟩)

/-- The scan accepts a run from its start on, and after a digit what may follow one. -/
theorem scanRun_eq_ok_iff (text : List Char) :
    (scanRun radix text false = .ok () ↔ IsRun radix text) ∧
      (scanRun radix text true = .ok () ↔ IsTail radix text) := by
  induction text with
  | nil =>
    have hnil : ¬IsRun radix [] := fun h => h.ne_nil rfl
    simp [scanRun, hnil, IsTail]
  | cons c text ih =>
    rw [isTail_cons_iff, isRun_cons_iff]
    by_cases hsep : c = '_'
    · subst hsep
      simp [scanRun, ih.1, not_isDigit_separator]
    · by_cases hdigit : IsDigit radix c
      · rw [scanRun_cons_of_isDigit hdigit, scanRun_cons_of_isDigit hdigit, ih.2,
          and_iff_right hdigit]
        simp [hsep]
      · have herror : ∀ b, scanRun radix (c :: text) b = .error .unexpectedCharacter := by
          intro b
          rw [scanRun, if_neg hsep, if_neg hdigit]
        simp [herror, hdigit, hsep]

/-- The texts that are accepted as digit runs are the digit runs. -/
theorem checkDigits_eq_ok_iff (text : List Char) :
    checkDigits radix text = .ok () ↔ IsRun radix text := by
  by_cases hnil : text = []
  · subst hnil
    exact iff_of_false (by rintro ⟨⟩) fun h => h.ne_nil rfl
  · rw [checkDigits_of_ne_nil hnil, (scanRun_eq_ok_iff text).1]

theorem checkDigits_of_isRun (h : IsRun radix text) : checkDigits radix text = .ok () :=
  (checkDigits_eq_ok_iff text).2 h

theorem checkOptionalDigits_eq_ok_iff (text? : Option (List Char)) :
    checkOptionalDigits radix text? = .ok () ↔ ∀ text ∈ text?, text = [] ∨ IsRun radix text := by
  match text? with
  | none => simp [checkOptionalDigits]
  | some text =>
    rw [checkOptionalDigits]
    by_cases hnil : text = []
    · simp [hnil]
    · rw [if_neg (by simpa using hnil), checkDigits_eq_ok_iff]
      simp [hnil]

theorem checkOptionalDigits_of_forall {text? : Option (List Char)}
    (h : ∀ text ∈ text?, text = [] ∨ IsRun radix text) :
    checkOptionalDigits radix text? = .ok () :=
  (checkOptionalDigits_eq_ok_iff text?).2 h

/-! ## Numbers of at most 128 bits -/

theorem le_foldl_push (hradix : IsRadix radix) (start : ℕ) (text : List Char) :
    start ≤ text.foldl (push radix) start := by
  rw [foldl_push]
  exact Nat.le_add_right_of_le (Nat.le_mul_of_pos_right _ (Nat.pow_pos hradix.pos))

/-- One digit of the scan : it gives up if the number so far is too large. -/
theorem scanDigits_cons_of_isDigit {c : Char} (h : IsDigit radix c) (start : ℕ)
    (afterDigit : Bool) :
    scanDigits radix (c :: text) start afterDigit =
      if push radix start c < 2 ^ 128 then scanDigits radix text (push radix start c) true
      else .error .integerOutOfRange := by
  obtain ⟨d, hd⟩ := Option.isSome_iff_exists.1 h
  rw [scanDigits, if_neg h.ne_separator, hd]
  simp only [push, hd]

/-- After a digit, a separator leaves the number as it is. -/
theorem scanDigits_separator (text : List Char) (start : ℕ) :
    scanDigits radix ('_' :: text) start true = scanDigits radix text start false := by
  rw [scanDigits, if_pos rfl, if_pos rfl]

/-- The number of a run, read on from a number, if it fits. -/
theorem scanDigits_of_isRun (hradix : IsRadix radix) (h : IsRun radix text) (start : ℕ)
    (afterDigit : Bool) :
    scanDigits radix text start afterDigit =
      if text.foldl (push radix) start < 2 ^ 128 then .ok (text.foldl (push radix) start)
      else .error .integerOutOfRange := by
  -- A number that is too large before the rest stays too large.
  have hlarge : ∀ (n : ℕ) (rest : List Char), ¬n < 2 ^ 128 →
      ¬rest.foldl (push radix) n < 2 ^ 128 := fun n rest hn => by
    have := le_foldl_push hradix n rest
    omega
  induction h generalizing start afterDigit with
  | single hc => rw [scanDigits_cons_of_isDigit hc, scanDigits, if_pos rfl]; rfl
  | cons hc _ ih =>
    rw [scanDigits_cons_of_isDigit hc, List.foldl_cons]
    split_ifs with hfits hrest hrest
    · rw [ih, if_pos hrest]
    · rw [ih, if_neg hrest]
    · exact absurd hrest (hlarge _ _ hfits)
    · rfl
  | separated hc _ ih =>
    rw [scanDigits_cons_of_isDigit hc, List.foldl_cons, List.foldl_cons, push_separator]
    split_ifs with hfits hrest hrest
    · rw [scanDigits_separator, ih, if_pos hrest]
    · rw [scanDigits_separator, ih, if_neg hrest]
    · exact absurd hrest (hlarge _ _ hfits)
    · rfl

theorem readDigits_of_isRun (hradix : IsRadix radix) (h : IsRun radix text) :
    readDigits radix text =
      if value radix text < 2 ^ 128 then .ok (value radix text)
      else .error .integerOutOfRange := by
  rw [readDigits_of_ne_nil h.ne_nil, scanDigits_of_isRun hradix h, value]

/-- A text that is scanned for its number passes the scan that looks for digits only. -/
theorem scanRun_of_scanDigits {start number : ℕ} {afterDigit : Bool}
    (h : scanDigits radix text start afterDigit = .ok number) :
    scanRun radix text afterDigit = .ok () := by
  induction text generalizing start afterDigit with
  | nil => cases afterDigit <;> simp_all [scanDigits, scanRun]
  | cons c text ih =>
    unfold scanDigits at h
    unfold scanRun
    split_ifs at h ⊢ with hsep hafter hdigit
    · exact ih h
    · cases hd : digit? radix c with
      | none => simp [hd] at hdigit
      | some d =>
        rw [hd] at h
        simp only at h
        split_ifs at h with hfits
        exact ih h
    · rw [Option.not_isSome_iff_eq_none] at hdigit
      simp [hdigit] at h

/-- The texts that are read as a number are the runs of this number, if it fits. -/
theorem readDigits_eq_ok_iff (hradix : IsRadix radix) (text : List Char) (number : ℕ) :
    readDigits radix text = .ok number ↔
      IsRun radix text ∧ number = value radix text ∧ number < 2 ^ 128 := by
  constructor
  · intro h
    have hrun : IsRun radix text := by
      unfold readDigits at h
      split_ifs at h with hnil
      exact (scanRun_eq_ok_iff text).1.1 (scanRun_of_scanDigits h)
    rw [readDigits_of_isRun hradix hrun] at h
    split_ifs at h with hfits
    obtain rfl := Except.ok.inj h
    exact ⟨hrun, rfl, hfits⟩
  · rintro ⟨hrun, rfl, hfits⟩
    rw [readDigits_of_isRun hradix hrun, if_pos hfits]

end Literal

end Lanewise
