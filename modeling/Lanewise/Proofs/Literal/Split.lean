import Mathlib.Data.List.TakeWhile
import Lanewise.Literal.Split
import Lanewise.Proofs.Literal.DigitRun

/-!
# Cutting a literal

The parts into which a text is cut are the parts it is put together from, in both directions : a
text that is put together is cut into its parts, and the parts of any text put together are the
text again.
-/

namespace Lanewise

namespace Literal

open Numeral

variable {text : List Char}

theorem ofList_eq_iff {chars : List Char} {s : String} :
    String.ofList chars = s ↔ chars = s.toList := by
  constructor
  · rintro rfl
    rw [String.toList_ofList]
  · rintro rfl
    rw [String.ofList_toList]

/-- A check in front of a computation that succeeds has succeeded. -/
theorem bind_eq_ok_iff {ε α β : Type} {x : Except ε α} {f : α → Except ε β} {b : β} :
    (x >>= f) = .ok b ↔ ∃ a, x = .ok a ∧ f a = .ok b := by
  cases x with
  | error e => simp [bind, Except.bind]
  | ok a => simp [bind, Except.bind]

/-! ## The sign -/

/-- The text of an optional sign. -/
def signText : Option Sign → List Char
  | none => []
  | some .plus => ['+']
  | some .minus => ['-']

/-- A number with the sign in front of it. -/
def signed (sign : Option Sign) (n : ℕ) : ℤ :=
  if sign = some .minus then -n else n

theorem splitSign_of_not_mem (hplus : '+' ∉ text) (hminus : '-' ∉ text) :
    splitSign text = (none, text) := by
  unfold splitSign
  split
  · simp at hminus
  · simp at hplus
  · rfl

theorem splitSign_signText (sign : Option Sign) {c : Char} (rest : List Char) (hplus : c ≠ '+')
    (hminus : c ≠ '-') : splitSign (signText sign ++ c :: rest) = (sign, c :: rest) := by
  match sign with
  | none => simp [signText, splitSign, hplus, hminus]
  | some .plus => rfl
  | some .minus => rfl

/-- A run does not start with a sign. -/
theorem splitSign_isRun_append {radix : ℕ} (sign : Option Sign) {run : List Char}
    (h : IsRun radix run) (rest : List Char) :
    splitSign (signText sign ++ (run ++ rest)) = (sign, run ++ rest) := by
  obtain ⟨c, tail, rfl, hc⟩ := h.exists_cons
  refine splitSign_signText sign (tail ++ rest) ?_ ?_
  · rintro rfl
    simp [IsDigit, digit?, hexDigit?] at hc
  · rintro rfl
    simp [IsDigit, digit?, hexDigit?] at hc

theorem splitSign_isRun {radix : ℕ} (sign : Option Sign) {run : List Char}
    (h : IsRun radix run) : splitSign (signText sign ++ run) = (sign, run) := by
  simpa using splitSign_isRun_append sign h []

theorem mem_signText {sign : Option Sign} {c : Char} (hc : c ∈ signText sign) :
    c = '+' ∨ c = '-' := by
  unfold signText at hc
  split at hc <;> simp_all

/-- The sign and the rest make up the text. -/
theorem signText_splitSign (text : List Char) :
    signText (splitSign text).1 ++ (splitSign text).2 = text := by
  unfold splitSign
  split <;> rfl

/-! ## The first mark -/

theorem cut_append_cons {isMark : Char → Bool} {first : List Char} {mark : Char}
    (hfirst : ∀ c ∈ first, isMark c = false) (hmark : isMark mark = true) (rest : List Char) :
    cut isMark (first ++ mark :: rest) = (first, some rest) := by
  have hall : ∀ c ∈ first, (!isMark c) = true := fun c hc => by simp [hfirst c hc]
  rw [cut, List.takeWhile_append_of_pos hall, List.dropWhile_append_of_pos hall]
  simp [hmark]

theorem cut_of_forall {isMark : Char → Bool} (htext : ∀ c ∈ text, isMark c = false) :
    cut isMark text = (text, none) := by
  have hall : ∀ c ∈ text, (!isMark c) = true := fun c hc => by simp [htext c hc]
  rw [cut, List.takeWhile_eq_self_iff.2 hall, List.dropWhile_eq_nil_iff.2 hall]
  rfl

/-- A text has no mark, or is cut at one. -/
theorem cut_cases (isMark : Char → Bool) (text : List Char) :
    cut isMark text = (text, none) ∨
      ∃ first mark rest, isMark mark = true ∧ text = first ++ mark :: rest ∧
        cut isMark text = (first, some rest) := by
  induction text with
  | nil => exact Or.inl rfl
  | cons c text ih =>
    by_cases hc : isMark c = true
    · exact Or.inr ⟨[], c, text, hc, rfl, by simp [cut, hc]⟩
    · rw [Bool.not_eq_true] at hc
      rcases ih with h | ⟨first, mark, rest, hmark, rfl, h⟩
      · left
        simp_all [cut]
      · right
        refine ⟨c :: first, mark, rest, hmark, rfl, ?_⟩
        simp_all [cut]

/-! ## The point -/

/-- A text with an optional point and more text after it. -/
def pointed (whole : List Char) : Option (List Char) → List Char
  | none => whole
  | some fraction => whole ++ '.' :: fraction

theorem cutPoint_pointed {whole : List Char} (hwhole : '.' ∉ whole)
    (fraction? : Option (List Char)) :
    cutPoint (pointed whole fraction?) = (whole, fraction?) := by
  have hpoint : ∀ c ∈ whole, (c == '.') = false := fun c hc =>
    beq_eq_false_iff_ne.2 fun h => hwhole (h ▸ hc)
  match fraction? with
  | none => exact cut_of_forall hpoint
  | some fraction => exact cut_append_cons hpoint rfl fraction

theorem forall_mem_pointed {P : Char → Prop} {whole : List Char} {fraction? : Option (List Char)}
    (hpoint : P '.') (hwhole : ∀ c ∈ whole, P c)
    (hfraction : ∀ fraction ∈ fraction?, ∀ c ∈ fraction, P c) :
    ∀ c ∈ pointed whole fraction?, P c := by
  intro c hc
  match fraction? with
  | none => exact hwhole c hc
  | some fraction =>
    rcases List.mem_append.1 hc with hc | hc
    · exact hwhole c hc
    · rcases List.mem_cons.1 hc with rfl | hc
      · exact hpoint
      · exact hfraction fraction rfl c hc

theorem pointed_cutPoint (text : List Char) :
    pointed (cutPoint text).1 (cutPoint text).2 = text := by
  rcases cut_cases (· == '.') text with h | ⟨first, mark, rest, hmark, rfl, h⟩
  · rw [cutPoint, h]
    rfl
  · rw [beq_iff_eq] at hmark
    rw [cutPoint, h, pointed, hmark]

end Literal

end Lanewise
