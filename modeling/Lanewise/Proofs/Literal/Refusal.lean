import Lanewise.Proofs.Literal.DecimalFloat

/-!
# The refusals of a float literal

A text that is refused as malformed would have passed every check of its digits, only to be turned
down by the reader of decimals. No text is (`explained_readFloatBody`) : the checks never say so
themselves, and what they let through is a decimal that the reader can read.
-/

namespace Lanewise

namespace Literal

open Numeral Format

variable {fmt : Format}

/-! ## Results -/

/-- A refusal that names the fault of the text. -/
def Explained {α : Type} (result : Except LiteralError α) : Prop :=
  result ≠ .error .malformedFloat

theorem explained_ok {α : Type} (a : α) : Explained (.ok a) := by
  simp [Explained]

theorem Explained.bind {α β : Type} {x : Except LiteralError α}
    {f : α → Except LiteralError β} (hx : Explained x) (hf : ∀ a, x = .ok a → Explained (f a)) :
    Explained (x >>= f) := by
  cases x with
  | error e => simpa [Explained, Bind.bind, Except.bind] using hx
  | ok a => exact hf a rfl

/-! ## Digits -/

theorem explained_scanRun (radix : ℕ) (text : List Char) (afterDigit : Bool) :
    Explained (scanRun radix text afterDigit) := by
  induction text generalizing afterDigit with
  | nil => cases afterDigit <;> simp [scanRun, Explained]
  | cons c text ih =>
    unfold scanRun
    split_ifs
    · exact ih false
    · simp [Explained]
    · exact ih true
    · simp [Explained]

theorem explained_scanDigits (radix : ℕ) (text : List Char) (start : ℕ) (afterDigit : Bool) :
    Explained (scanDigits radix text start afterDigit) := by
  induction text generalizing start afterDigit with
  | nil => cases afterDigit <;> simp [scanDigits, Explained]
  | cons c text ih =>
    unfold scanDigits
    split_ifs
    · exact ih start false
    · simp [Explained]
    · split
      · simp [Explained]
      · split_ifs
        · exact ih _ true
        · simp [Explained]

theorem explained_checkDigits (radix : ℕ) (text : List Char) :
    Explained (checkDigits radix text) := by
  unfold checkDigits
  split_ifs
  · simp [Explained]
  · exact explained_scanRun radix text false

theorem explained_checkOptionalDigits (radix : ℕ) (text? : Option (List Char)) :
    Explained (checkOptionalDigits radix text?) := by
  unfold checkOptionalDigits
  split
  · simp [Explained]
  · split_ifs
    · simp [Explained]
    · exact explained_checkDigits radix _

theorem explained_readDigits (radix : ℕ) (text : List Char) :
    Explained (readDigits radix text) := by
  unfold readDigits
  split_ifs
  · simp [Explained]
  · exact explained_scanDigits radix text 0 false

/-! ## Floats -/

theorem explained_readExponent (text : List Char) : Explained (readExponent text) := by
  unfold readExponent
  refine (explained_checkDigits 10 _).bind fun _ _ => ?_
  simp [Explained, pure, Except.pure]

theorem explained_readHexFloat (text : List Char) : Explained (readHexFloat fmt text) := by
  unfold readHexFloat
  refine (explained_checkDigits 16 _).bind fun _ _ => ?_
  refine (explained_checkOptionalDigits 16 _).bind fun _ _ => ?_
  split
  · refine (explained_ok _).bind fun _ _ => ?_
    beta_reduce
    split <;> simp [Explained]
  · refine (explained_readExponent _).bind fun _ _ => ?_
    beta_reduce
    split <;> simp [Explained]

theorem explained_cleanDecimal (text : List Char) : Explained (cleanDecimal text) := by
  unfold cleanDecimal
  refine (explained_checkDigits 10 _).bind fun _ _ => ?_
  refine (explained_checkOptionalDigits 10 _).bind fun _ _ => ?_
  split
  · simp [Explained, pure, Except.pure]
  · refine (explained_checkDigits 10 _).bind fun _ _ => ?_
    simp [Explained, pure, Except.pure]

/-- A decimal literal is never one that its reader cannot read. -/
theorem explained_readDecimalWith (heb : 2 ≤ fmt.exponentBits) (text : List Char) :
    Explained (readDecimalWith (nearestDecimal fmt) text) := by
  unfold readDecimalWith
  refine (explained_cleanDecimal text).bind fun cleaned hcleaned => ?_
  obtain ⟨parts, -, rfl⟩ := (cleanDecimal_eq_ok_iff _ _).1 hcleaned
  rw [nearestDecimal_clean heb]
  split_ifs <;> simp [Explained]

theorem explained_readFloatBody (heb : 2 ≤ fmt.exponentBits) (text : List Char) :
    Explained (readFloatBody (nearestDecimal fmt) text) := by
  unfold readFloatBody
  split
  · simp [Explained]
  · simp [Explained]
  · refine (explained_readDigits 16 _).bind fun _ _ => ?_
    split_ifs <;> simp [Explained]
  · exact explained_readHexFloat _
  · exact explained_readDecimalWith heb _

end Literal

end Lanewise
