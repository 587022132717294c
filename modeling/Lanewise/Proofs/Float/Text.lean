import Lanewise.Float.Text
import Lanewise.Proofs.Decimal.Positional
import Lanewise.Proofs.Decimal.Shortest

/-!
# The text of a float reads back

The text of a pattern is a literal of this pattern, whatever it stands for (`readFloat_text`) :
a NaN has its payload in it, a finite value the digits of a decimal that rounds to it, and a
set sign bit the minus.
-/

namespace Lanewise

namespace Format

open Literal

variable {fmt : Format}

/-! ## The magnitude -/

theorem nan_toList (payload : List Char) :
    "nan:0x".toList ++ payload = 'n' :: 'a' :: 'n' :: ':' :: '0' :: 'x' :: payload :=
  rfl

/-- The payload of a NaN is read back. -/
theorem readPayload_least (hmb : fmt.mantissaBits ≤ 128) {payload : ℕ} (hne : payload ≠ 0)
    (hlt : payload < 2 ^ fmt.mantissaBits) :
    readPayload fmt (Numeral.least 16 payload) = .ok (fmt.infinityBits + payload) := by
  have hfits : payload < 2 ^ 128 := hlt.trans_le (Nat.pow_le_pow_right Nat.two_pos hmb)
  rw [readPayload, readDigits_least Numeral.isRadix_sixteen hfits]
  simp only [bind, Except.bind]
  rw [if_neg (by omega)]

theorem readFloatBody_magnitudeText (heb : 2 ≤ fmt.exponentBits) (hmb : fmt.mantissaBits ≤ 128)
    (x : fmt.Pattern) :
    readFloatBody (nearestDecimal fmt) (magnitudeText x) = .ok (magnitude x) := by
  rw [magnitudeText]
  split_ifs with hnan hinf hzero
  · obtain ⟨hmag, hne⟩ := magnitude_of_isNaN hnan
    rw [hmag, nan_toList]
    exact readPayload_least hmb hne (Nat.mod_lt _ (Nat.two_pow_pos _))
  · rw [magnitude_of_isInfinite hinf]
    rfl
  · rw [magnitude_of_units_eq_zero hzero]
    exact Decimal.readFloatBody_positional (d := ⟨0, 0⟩) heb rfl
  · have hbits := magnitude_lt_of_finite hnan hinf
    refine Decimal.readFloatBody_positional heb ?_
    rw [units_eq_magnitudeUnits]
    exact Decimal.round_shortest heb hbits

/-! ## The whole text -/

/-- The characters of a magnitude : hexadecimal digits, the point, and the letters and the colon
of the special forms. -/
theorem mem_magnitudeText {x : fmt.Pattern} {c : Char} (hc : c ∈ magnitudeText x) :
    IsDigit 16 c ∨ c ∈ ['.', 'i', 'n', 'x', ':'] := by
  rw [magnitudeText] at hc
  split_ifs at hc
  · rw [nan_toList] at hc
    simp only [List.mem_cons] at hc
    rcases hc with rfl | rfl | rfl | rfl | rfl | rfl | hc
    iterate 6 decide
    exact Or.inl (isDigit_of_mem_least Numeral.isRadix_sixteen hc)
  · have hinf : "inf".toList = ['i', 'n', 'f'] := rfl
    simp only [hinf, List.mem_cons] at hc
    rcases hc with rfl | rfl | rfl | hc
    iterate 3 decide
    cases hc
  · rw [List.mem_singleton] at hc
    subst hc
    decide
  · rcases Decimal.mem_positional hc with hdigit | rfl
    · exact Or.inl (hdigit.mono (by decide))
    · decide

theorem not_mem_magnitudeText (x : fmt.Pattern) {c : Char}
    (h : ¬(IsDigit 16 c ∨ c ∈ ['.', 'i', 'n', 'x', ':'])) : c ∉ magnitudeText x :=
  mt mem_magnitudeText h

theorem splitSign_toChars (x : fmt.Pattern) :
    splitSign (toChars x) = (if isNegative x then some .minus else none, magnitudeText x) := by
  rw [toChars]
  split_ifs
  · rfl
  · exact splitSign_of_not_mem (not_mem_magnitudeText x (by decide))
      (not_mem_magnitudeText x (by decide))

/-- The text of a pattern is read as this pattern. -/
theorem readFloat_text (heb : 2 ≤ fmt.exponentBits) (hmb : fmt.mantissaBits ≤ 128)
    (x : fmt.Pattern) : readFloat fmt (text x) = .ok x := by
  have hsign : decide ((if isNegative x then some Sign.minus else none) = some .minus) =
      isNegative x := by
    cases isNegative x <;> rfl
  rw [readFloat, readFloatWith, text, String.toList_ofList, readFloatChars, splitSign_toChars]
  simp only [readFloatBody_magnitudeText heb hmb, bind, Except.bind, hsign, pattern_magnitude]
  rfl

/-- There is no space in the text of a pattern. -/
theorem space_not_mem_toChars (x : fmt.Pattern) : ' ' ∉ toChars x := by
  have hmag : ' ' ∉ magnitudeText x := not_mem_magnitudeText x (by decide)
  rw [toChars]
  split_ifs
  · rw [List.mem_cons, not_or]
    exact ⟨by decide, hmag⟩
  · exact hmag

end Format

end Lanewise
