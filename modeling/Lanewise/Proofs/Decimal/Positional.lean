import Lanewise.Decimal.Positional
import Lanewise.Proofs.Literal.DecimalFloat

/-!
# Positional notation reads back

A decimal in positional notation is a decimal literal of the same value (`exists_parts`). As a
float literal it is rounded like the decimal itself (`readFloatBody_positional`).
-/

namespace Lanewise

namespace Decimal

open Numeral Literal Format

variable {fmt : Format}

/-! ## The written text -/

/-- The number of places after the point. -/
def places (d : Decimal) : ℕ :=
  (-d.exponent).toNat

/-- The digits before the point. -/
def wholeDigits (d : Decimal) : List Char :=
  least 10 (d.digits * 10 ^ d.exponent.toNat / 10 ^ d.places)

/-- The digits after the point, if there is a point. -/
def fractionDigits? (d : Decimal) : Option (List Char) :=
  if 0 ≤ d.exponent then none else some (fixed 10 d.places d.digits)

theorem positional_eq (d : Decimal) : d.positional = pointed d.wholeDigits d.fractionDigits? := by
  rw [positional, wholeDigits, fractionDigits?]
  split_ifs with h
  · have hplaces : d.places = 0 := by rw [places]; omega
    rw [hplaces, Nat.pow_zero, Nat.div_one]
    rfl
  · have hzero : d.exponent.toNat = 0 := by omega
    rw [hzero, Nat.pow_zero, Nat.mul_one]
    rfl

theorem isDigit_of_mem_wholeDigits {d : Decimal} {c : Char} (hc : c ∈ d.wholeDigits) :
    IsDigit 10 c :=
  isDigit_of_mem_least isRadix_ten hc

theorem fraction_of_mem {d : Decimal} {fraction : List Char} (h : fraction ∈ d.fractionDigits?) :
    d.exponent < 0 ∧ fraction = fixed 10 d.places d.digits := by
  rw [Option.mem_def, fractionDigits?] at h
  split_ifs at h with hexp
  exact ⟨not_le.1 hexp, (Option.some.inj h).symm⟩

theorem isDigit_of_mem_fraction {d : Decimal} {fraction : List Char}
    (h : fraction ∈ d.fractionDigits?) {c : Char} (hc : c ∈ fraction) : IsDigit 10 c := by
  rw [(fraction_of_mem h).2] at hc
  exact isDigit_of_mem_fixed isRadix_ten hc

/-- Every character of the text is a digit or the point. -/
theorem mem_positional {d : Decimal} {c : Char} (hc : c ∈ d.positional) :
    IsDigit 10 c ∨ c = '.' := by
  rw [positional_eq] at hc
  exact forall_mem_pointed (P := fun c => IsDigit 10 c ∨ c = '.') (Or.inr rfl)
    (fun _ h => Or.inl (isDigit_of_mem_wholeDigits h))
    (fun _ hf _ h => Or.inl (isDigit_of_mem_fraction hf h)) c hc

/-! ## Reading it -/

/-- The text is put together from parts, which write the number of the decimal. -/
theorem exists_parts (d : Decimal) :
    ∃ parts : FloatParts 10 isExponentMark, parts.toList = d.positional ∧
      parts.value 10 = d.value := by
  have hwhole : IsRun 10 d.wholeDigits := isRun_least isRadix_ten _
  rw [positional_eq]
  cases hf : d.fractionDigits? with
  | none =>
    refine ⟨⟨⟨d.wholeDigits, hwhole⟩, none, none⟩, rfl, ?_⟩
    have hexp : 0 ≤ d.exponent := by
      by_contra h
      rw [fractionDigits?, if_neg h] at hf
      cases hf
    have hplaces : d.places = 0 := by rw [places]; omega
    have hpow : (10 : ℚ) ^ d.exponent = 10 ^ d.exponent.toNat := by
      rw [← zpow_natCast, Int.toNat_of_nonneg hexp]
    simp [FloatParts.value, FloatParts.mantissa, FloatParts.fractionDigits,
      FloatParts.exponentValue, value_nil, wholeDigits, value_least isRadix_ten, hplaces, value,
      hpow]
  | some fraction =>
    obtain ⟨hexp, rfl⟩ := fraction_of_mem hf
    have hplaces : 0 < d.places := by rw [places]; omega
    refine ⟨⟨⟨d.wholeDigits, hwhole⟩, some (some ⟨_, isRun_fixed isRadix_ten hplaces d.digits⟩),
      none⟩, rfl, ?_⟩
    have hzero : d.exponent.toNat = 0 := by omega
    have hexponent : d.exponent = -(d.places : ℤ) := by rw [places]; omega
    have hcount : digitCount 10 (fixed 10 d.places d.digits) = d.places := by
      rw [digitCount, List.countP_eq_length.2 fun _ => isDigit_of_mem_fraction hf, length_fixed]
    have hsplit : ((d.digits / 10 ^ d.places : ℕ) : ℚ) * 10 ^ d.places +
        (d.digits % 10 ^ d.places : ℕ) = d.digits := by
      exact_mod_cast Nat.div_add_mod' d.digits (10 ^ d.places)
    simp only [FloatParts.value, FloatParts.mantissa, FloatParts.fractionDigits,
      FloatParts.exponentValue, wholeDigits, value_least isRadix_ten, hzero, hcount,
      value_fixed isRadix_ten, value]
    rw [hexponent, zpow_neg, zpow_natCast, ← hsplit]
    simp only [pow_zero, mul_one, Option.map_none, Option.getD_none, zpow_zero, Nat.cast_ofNat]
    field_simp

/-- The text of a decimal that rounds to finite bits is read as these bits. -/
theorem readFloatBody_positional (heb : 2 ≤ fmt.exponentBits) {d : Decimal} {bits : ℕ}
    (h : d.round fmt = some bits) :
    readFloatBody (nearestDecimal fmt) d.positional = .ok bits := by
  obtain ⟨parts, htext, hvalue⟩ := d.exists_parts
  rw [round_eq heb, ← hvalue] at h
  rw [← htext, readFloatBody_decimal heb]
  split_ifs at h ⊢ with hlt
  rw [Option.some.inj h]

end Decimal

end Lanewise
