import Mathlib.Algebra.Field.Rat
import Lanewise.Proofs.Literal.Split
import Lanewise.Proofs.Literal.WrittenDigits

/-!
# The parts of a finite float

`FloatParts` are the parts of `D ('.' D?)? (mark sign? D)?`, the shape of a finite float in either
notation, for the radix of its digits and the marks of its exponent. `FloatParts.value` is the
number they write.

The cuts find the parts of a text that is put together from parts (`FloatParts.cut_toList`,
`FloatParts.cutPoint_mantissaText`), and a text whose cuts are digit runs is put together from
parts (`FloatParts.exists_of_cuts`). Dropping the separators of a text drops them in every part
(`FloatParts.toList_clean`) and keeps the value (`FloatParts.value_clean`).
-/

namespace Lanewise

namespace Literal

open Numeral

/-! ## The grammar -/

/-- An exponent as it is written, `mark sign? D`. -/
structure ExponentParts (isMark : Char → Bool) where
  mark : Char
  marks : isMark mark = true
  sign : Option Sign
  digits : DigitRun 10

/-- A finite float without sign and prefix, `D ('.' D?)? (mark sign? D)?`. -/
structure FloatParts (radix : ℕ) (isMark : Char → Bool) where
  whole : DigitRun radix
  /-- Nothing, a point, or a point and more digits. -/
  fraction : Option (Option (DigitRun radix))
  exponent : Option (ExponentParts isMark)

variable {radix : ℕ} {isMark : Char → Bool}

namespace ExponentParts

variable (e : ExponentParts isMark)

/-- The text after the mark. -/
def written : List Char :=
  signText e.sign ++ e.digits.1

def value : ℤ :=
  signed e.sign (Numeral.value 10 e.digits.1)

end ExponentParts

namespace FloatParts

variable (parts : FloatParts radix isMark)

/-- The digits after the point. -/
def fractionDigits : List Char :=
  match parts.fraction with
  | some (some run) => run.1
  | _ => []

/-- The digits after the point, if there is a point. -/
def fraction? : Option (List Char) :=
  parts.fraction.map fun run? => (run?.map Subtype.val).getD []

/-- The text before the exponent. -/
def mantissaText : List Char :=
  pointed parts.whole.1 parts.fraction?

def toList : List Char :=
  match parts.exponent with
  | none => parts.mantissaText
  | some e => parts.mantissaText ++ e.mark :: e.written

def exponentValue : ℤ :=
  (parts.exponent.map ExponentParts.value).getD 0

/-- The number before the exponent. -/
def mantissa : ℚ :=
  Numeral.value radix parts.whole.1 +
    Numeral.value radix parts.fractionDigits / radix ^ digitCount radix parts.fractionDigits

theorem mantissa_of_whole (h : parts.fractionDigits = []) :
    parts.mantissa = Numeral.value radix parts.whole.1 := by
  rw [mantissa, h, value_nil, Nat.cast_zero, zero_div, add_zero]

/-- The number that the parts write with a power of the base. -/
def value (base : ℚ) : ℚ :=
  parts.mantissa * base ^ parts.exponentValue

/-! ## Cutting the text -/

theorem isRun_fraction : ∀ digits ∈ parts.fraction?, digits = [] ∨ IsRun radix digits := by
  intro digits h
  rw [Option.mem_def, fraction?] at h
  match hf : parts.fraction with
  | none => simp [hf] at h
  | some none => simp_all
  | some (some run) =>
    right
    simp only [hf, Option.map_some, Option.getD_some, Option.some.injEq] at h
    exact h ▸ run.2

theorem fraction?_getD : parts.fraction?.getD [] = parts.fractionDigits := by
  unfold fraction? fractionDigits
  rcases parts.fraction with _ | _ | _ <;> rfl

theorem cutPoint_mantissaText :
    cutPoint parts.mantissaText = (parts.whole.1, parts.fraction?) :=
  cutPoint_pointed (parts.whole.2.not_mem not_isDigit_point) _

/-- Every character of a mantissa is a digit, a separator or the point. -/
theorem mem_mantissaText {c : Char} (hc : c ∈ parts.mantissaText) :
    IsDigit radix c ∨ c = '_' ∨ c = '.' := by
  have hrun : ∀ {run : List Char}, IsRun radix run → ∀ c ∈ run,
      IsDigit radix c ∨ c = '_' ∨ c = '.' := by
    intro run h c hc
    by_contra hne
    exact h.not_mem (by tauto) hc
  refine forall_mem_pointed (P := fun c => IsDigit radix c ∨ c = '_' ∨ c = '.')
    (Or.inr (Or.inr rfl)) (hrun parts.whole.2) (fun digits hmem => ?_) c hc
  rcases parts.isRun_fraction digits hmem with rfl | h
  · simp
  · exact hrun h

/-- The text starts with the digits before the point. -/
theorem exists_toList_eq : ∃ rest, parts.toList = parts.whole.1 ++ rest := by
  obtain ⟨rest, hrest⟩ : ∃ rest, parts.mantissaText = parts.whole.1 ++ rest := by
    unfold mantissaText
    cases parts.fraction? with
    | none => exact ⟨[], (List.append_nil _).symm⟩
    | some digits => exact ⟨_, rfl⟩
  unfold toList
  split
  · exact ⟨rest, hrest⟩
  · exact ⟨_, by rw [hrest, List.append_assoc]⟩

/-- Every character of the text is one of a mantissa, a mark, a sign or a decimal digit. -/
theorem mem_toList {c : Char} (hc : c ∈ parts.toList) :
    (IsDigit radix c ∨ c = '_' ∨ c = '.') ∨ isMark c = true ∨ (c = '+' ∨ c = '-') ∨
      IsDigit 10 c := by
  unfold toList at hc
  split at hc
  · exact Or.inl (parts.mem_mantissaText hc)
  · next e _ =>
    rcases List.mem_append.1 hc with hc | hc
    · exact Or.inl (parts.mem_mantissaText hc)
    · rcases List.mem_cons.1 hc with rfl | hc
      · exact Or.inr (Or.inl e.marks)
      · rcases List.mem_append.1 hc with hc | hc
        · exact Or.inr (Or.inr (Or.inl (mem_signText hc)))
        · by_contra hne
          refine e.digits.2.not_mem ?_ hc
          tauto

end FloatParts

/-- Marks that do not stand in a mantissa. -/
structure IsExponentMark (radix : ℕ) (isMark : Char → Bool) : Prop where
  not_digit : ∀ c, IsDigit radix c → isMark c = false
  not_separator : isMark '_' = false
  not_point : isMark '.' = false

namespace FloatParts

variable (parts : FloatParts radix isMark)

theorem cut_toList (hmarks : IsExponentMark radix isMark) :
    cut isMark parts.toList = (parts.mantissaText, parts.exponent.map ExponentParts.written) := by
  have hmantissa : ∀ c ∈ parts.mantissaText, isMark c = false := by
    intro c hc
    rcases parts.mem_mantissaText hc with hdigit | rfl | rfl
    · exact hmarks.not_digit c hdigit
    · exact hmarks.not_separator
    · exact hmarks.not_point
  unfold toList
  cases parts.exponent with
  | none => exact cut_of_forall hmantissa
  | some e => exact cut_append_cons hmantissa e.marks _

/-- A text whose cuts are digit runs is put together from parts. -/
theorem exists_of_cuts {text mantissa whole : List Char} {exponent? fraction? : Option (List Char)}
    (hcut : cut isMark text = (mantissa, exponent?))
    (hpoint : cutPoint mantissa = (whole, fraction?)) (hwhole : IsRun radix whole)
    (hfraction : ∀ digits ∈ fraction?, digits = [] ∨ IsRun radix digits)
    (hexponent : ∀ written ∈ exponent?, IsRun 10 (splitSign written).2) :
    ∃ parts : FloatParts radix isMark, parts.toList = text := by
  have hpointed : pointed whole fraction? = mantissa := by
    rw [← pointed_cutPoint mantissa, hpoint]
  obtain ⟨fraction, rfl⟩ : ∃ fraction : Option (Option (DigitRun radix)),
      fraction.map (fun run? => (run?.map Subtype.val).getD []) = fraction? := by
    cases fraction? with
    | none => exact ⟨none, rfl⟩
    | some digits =>
      rcases hfraction digits rfl with rfl | hrun
      · exact ⟨some none, rfl⟩
      · exact ⟨some (some ⟨digits, hrun⟩), rfl⟩
  have hmantissa (exponent : Option (ExponentParts isMark)) :
      mantissaText ⟨⟨whole, hwhole⟩, fraction, exponent⟩ = mantissa := hpointed
  rcases cut_cases isMark text with h | ⟨first, mark, rest, hmark, rfl, h⟩
  · obtain ⟨rfl, rfl⟩ := Prod.mk.inj (hcut.symm.trans h)
    exact ⟨⟨⟨whole, hwhole⟩, fraction, none⟩, hmantissa none⟩
  · obtain ⟨rfl, rfl⟩ := Prod.mk.inj (hcut.symm.trans h)
    have hrest := hexponent rest rfl
    refine ⟨⟨⟨whole, hwhole⟩, fraction,
      some ⟨mark, hmark, (splitSign rest).1, ⟨_, hrest⟩⟩⟩, ?_⟩
    change mantissaText _ ++ mark :: (signText (splitSign rest).1 ++ (splitSign rest).2) = _
    rw [hmantissa, signText_splitSign]

end FloatParts

/-! ## Dropping the separators -/

/-- A text without its separators. -/
def dropSeparators (text : List Char) : List Char :=
  text.filter (· != '_')

theorem dropSeparators_append (text rest : List Char) :
    dropSeparators (text ++ rest) = dropSeparators text ++ dropSeparators rest :=
  List.filter_append text rest

theorem dropSeparators_cons {c : Char} (hc : c ≠ '_') (text : List Char) :
    dropSeparators (c :: text) = c :: dropSeparators text :=
  List.filter_cons_of_pos (bne_iff_ne.2 hc)

theorem isDigit_of_mem_dropSeparators {text : List Char} (h : IsRun radix text) {c : Char}
    (hc : c ∈ dropSeparators text) : IsDigit radix c := by
  obtain ⟨hmem, hne⟩ := List.mem_filter.1 hc
  by_contra hdigit
  exact h.not_mem (not_or.2 ⟨hdigit, bne_iff_ne.1 hne⟩) hmem

theorem IsRun.dropSeparators {text : List Char} (h : IsRun radix text) :
    IsRun radix (dropSeparators text) := by
  refine isRun_of_forall ?_ fun c hc => isDigit_of_mem_dropSeparators h hc
  obtain ⟨c, rest, rfl, hc⟩ := h.exists_cons
  rw [dropSeparators_cons hc.ne_separator]
  exact List.cons_ne_nil _ _

/-- A separator is not a digit, so the number stays. -/
theorem value_dropSeparators (text : List Char) :
    Numeral.value radix (dropSeparators text) = Numeral.value radix text := by
  have hpush : (fun start c => if c != '_' then push radix start c else start) = push radix := by
    funext start c
    by_cases hc : c = '_'
    · subst hc
      simp [push_separator]
    · simp [hc]
  rw [Numeral.value, dropSeparators, List.foldl_filter, hpush, Numeral.value]

theorem digitCount_dropSeparators (text : List Char) :
    digitCount radix (dropSeparators text) = digitCount radix text := by
  rw [digitCount, dropSeparators, List.countP_filter, digitCount]
  refine List.countP_congr fun c _ => ?_
  rw [Bool.and_eq_true, and_iff_left_iff_imp, bne_iff_ne]
  exact IsDigit.ne_separator

/-- The digits of a run alone. -/
def DigitRun.clean (run : DigitRun radix) : DigitRun radix :=
  ⟨dropSeparators run.1, run.2.dropSeparators⟩

namespace FloatParts

variable (parts : FloatParts radix isMark)

/-- The parts without their separators. -/
def clean : FloatParts radix isMark where
  whole := parts.whole.clean
  fraction := parts.fraction.map (Option.map DigitRun.clean)
  exponent := parts.exponent.map fun e => { e with digits := e.digits.clean }

theorem fraction?_clean : parts.clean.fraction? = parts.fraction?.map dropSeparators := by
  unfold clean fraction?
  rcases parts.fraction with _ | _ | run <;> rfl

theorem fractionDigits_clean :
    parts.clean.fractionDigits = dropSeparators parts.fractionDigits := by
  unfold clean fractionDigits
  rcases parts.fraction with _ | _ | run <;> rfl

theorem mantissaText_clean : parts.clean.mantissaText = dropSeparators parts.mantissaText := by
  unfold mantissaText
  rw [fraction?_clean]
  cases parts.fraction? with
  | none => rfl
  | some digits =>
    rw [pointed, dropSeparators_append, dropSeparators_cons (by decide)]
    rfl

theorem toList_clean (hmarks : IsExponentMark radix isMark) :
    parts.clean.toList = dropSeparators parts.toList := by
  unfold toList
  rw [mantissaText_clean]
  cases he : parts.exponent with
  | none => simp [clean, he]
  | some e =>
    have hmark : e.mark ≠ '_' := by
      intro h
      have := e.marks
      rw [h, hmarks.not_separator] at this
      exact Bool.false_ne_true this
    have hsign : dropSeparators (signText e.sign) = signText e.sign := by
      rcases e.sign with _ | sign
      · rfl
      · cases sign <;> rfl
    rw [dropSeparators_append, dropSeparators_cons hmark, ExponentParts.written,
      dropSeparators_append, hsign]
    simp only [clean, he]
    rfl

theorem exponentValue_clean : parts.clean.exponentValue = parts.exponentValue := by
  unfold clean exponentValue
  cases parts.exponent with
  | none => rfl
  | some e =>
    simp only [Option.map_some, ExponentParts.value, DigitRun.clean, value_dropSeparators]

theorem mantissa_clean : parts.clean.mantissa = parts.mantissa := by
  unfold mantissa
  rw [fractionDigits_clean, value_dropSeparators, digitCount_dropSeparators]
  simp only [clean, DigitRun.clean, value_dropSeparators]

theorem value_clean (base : ℚ) : parts.clean.value base = parts.value base := by
  rw [value, mantissa_clean, exponentValue_clean, value]

/-- Every character of a part is a digit. -/
structure IsClean : Prop where
  whole : ∀ c ∈ parts.whole.1, IsDigit radix c
  fraction : ∀ c ∈ parts.fractionDigits, IsDigit radix c
  exponent : ∀ e ∈ parts.exponent, ∀ c ∈ e.digits.1, IsDigit 10 c

theorem isClean_clean : parts.clean.IsClean where
  whole _ hc := isDigit_of_mem_dropSeparators parts.whole.2 hc
  fraction c hc := by
    rw [fractionDigits_clean] at hc
    unfold fractionDigits at hc
    split at hc
    · next run _ => exact isDigit_of_mem_dropSeparators run.2 hc
    · cases hc
  exponent e he c hc := by
    obtain ⟨e', -, rfl⟩ := Option.map_eq_some_iff.1 he
    exact isDigit_of_mem_dropSeparators e'.digits.2 hc

end FloatParts

end Literal

end Lanewise
