import Lanewise.Literal.HexFloat
import Lanewise.Proofs.Float.Round
import Lanewise.Proofs.Literal.DigitRun

/-!
# The mantissa of a hexadecimal float

While the digits of a mantissa are gathered, the accumulator tracks the number `digits` that
they make up so far, on the grid of step `2 ^ grid` (`HexAccumulator.Tracks`). The step starts
at the written exponent and shrinks by four powers of two with each fraction digit. The
accumulator keeps all digits as long as its mantissa has fewer than 121 bits; from then on it
lies `shift` powers of two above the grid and its flag says whether a digit other than zero was
dropped.

One digit keeps the relation (`Tracks.push_digit`), so a whole mantissa does (`tracks_ofDigits`).
Of a tracked number the mantissa and the flag are an enclosure (`ofDigits_encloses`), tight enough
to round it in every format of ordinary size (`Tracks.round_eq`).
-/

namespace Lanewise

namespace Literal

open Numeral

namespace HexAccumulator

/-- The accumulator stands for `digits * 2 ^ grid`, up to what the flag says. -/
structure Tracks (acc : HexAccumulator) (digits : ℕ) (grid : ℤ) (shift : ℕ) : Prop where
  exponent_eq : acc.exponent = grid + shift
  le : acc.mantissa * 2 ^ shift ≤ digits
  lt : digits < (acc.mantissa + 1) * 2 ^ shift
  exact_iff : digits = acc.mantissa * 2 ^ shift ↔ acc.sticky = false
  stored : acc.mantissa < 2 ^ (120 : ℕ) → shift = 0
  mantissa_lt : acc.mantissa < 2 ^ (124 : ℕ)

/-- The step of the grid after one more digit. -/
def nextGrid (isFraction : Bool) (grid : ℤ) (count : ℕ) : ℤ :=
  if isFraction then grid - 4 * count else grid

variable {acc : HexAccumulator} {digits shift : ℕ} {grid : ℤ}

/-- While there is room, a digit is stored behind the others. -/
theorem Tracks.push_stored (h : Tracks acc digits grid shift) (isFraction : Bool) {c : Char} {d : ℕ}
    (hd : digit? 16 c = some d) (hroom : acc.mantissa < 2 ^ (120 : ℕ)) :
    Tracks (push isFraction acc c) (digits * 16 + d) (nextGrid isFraction grid 1) 0 := by
  have hd16 := digit?_lt hd
  obtain rfl := h.stored hroom
  have hle := h.le
  have hlt := h.lt
  have heq : digits = acc.mantissa := by omega
  have hclear : acc.sticky = false := h.exact_iff.1 (by omega)
  have hexp := h.exponent_eq
  rw [push, hd]
  simp only [hroom, if_true]
  refine ⟨?_, ?_, ?_, ?_, fun _ => rfl, ?_⟩
  · cases isFraction <;> simp [nextGrid, hexp]
  · simp only
    omega
  · simp only
    omega
  · simp [heq, hclear]
  · simp only
    omega

/-- Without room, a digit moves the mantissa up by its four bits and goes into the flag. -/
theorem Tracks.push_dropped (h : Tracks acc digits grid shift) (isFraction : Bool) {c : Char}
    {d : ℕ} (hd : digit? 16 c = some d) (hroom : ¬acc.mantissa < 2 ^ (120 : ℕ)) :
    Tracks (push isFraction acc c) (digits * 16 + d) (nextGrid isFraction grid 1) (shift + 4) := by
  have hd16 := digit?_lt hd
  have hle := h.le
  have hlt := h.lt
  have hpow : 2 ^ (shift + 4) = 16 * 2 ^ shift := by
    rw [Nat.pow_add]
    omega
  obtain ⟨block, hblock⟩ : ∃ block, block = acc.mantissa * 2 ^ shift := ⟨_, rfl⟩
  have hnext : acc.mantissa * 2 ^ (shift + 4) = 16 * block := by
    rw [hpow, hblock]
    ring
  have hsucc : (acc.mantissa + 1) * 2 ^ (shift + 4) = 16 * ((acc.mantissa + 1) * 2 ^ shift) := by
    rw [hpow]
    ring
  have hexp := h.exponent_eq
  have hexact := h.exact_iff
  rw [push, hd]
  simp only [hroom, if_false]
  refine ⟨?_, ?_, ?_, ?_, fun hr => absurd hr hroom, h.mantissa_lt⟩
  · cases isFraction <;> simp only [nextGrid, hexp, Bool.false_eq_true, if_false, if_true] <;>
      push_cast <;> ring
  · simp only
    rw [hnext]
    omega
  · simp only
    rw [hsucc]
    omega
  · -- The dropped digits are all zero exactly if they were before and this one is.
    rw [← hblock] at hle hexact
    rw [hnext, Bool.or_eq_false_iff, ← hexact, bne_eq_false_iff_eq]
    omega

/-- One more digit, stored or dropped. -/
theorem Tracks.push_digit (h : Tracks acc digits grid shift) (isFraction : Bool) {c : Char} {d : ℕ}
    (hd : digit? 16 c = some d) :
    ∃ shift', Tracks (push isFraction acc c) (digits * 16 + d) (nextGrid isFraction grid 1)
      shift' := by
  by_cases hroom : acc.mantissa < 2 ^ (120 : ℕ)
  · exact ⟨0, h.push_stored isFraction hd hroom⟩
  · exact ⟨shift + 4, h.push_dropped isFraction hd hroom⟩

/-- Separators change nothing. -/
theorem push_of_not_digit (isFraction : Bool) {c : Char} (hc : digit? 16 c = none) :
    push isFraction acc c = acc := by
  rw [push, hc]

theorem nextGrid_nextGrid (isFraction : Bool) (grid : ℤ) (m n : ℕ) :
    nextGrid isFraction (nextGrid isFraction grid m) n = nextGrid isFraction grid (m + n) := by
  cases isFraction
  · rfl
  · simp only [nextGrid, if_true]
    push_cast
    ring

theorem Tracks.foldl_push (isFraction : Bool) (text : List Char) :
    ∀ {acc : HexAccumulator} {digits shift : ℕ} {grid : ℤ}, Tracks acc digits grid shift →
      ∃ shift', Tracks (text.foldl (push isFraction) acc) (text.foldl (Numeral.push 16) digits)
        (nextGrid isFraction grid (digitCount 16 text)) shift' := by
  induction text with
  | nil =>
    intro acc digits shift grid h
    exact ⟨shift, by cases isFraction <;> simpa [nextGrid, digitCount] using h⟩
  | cons c text ih =>
    intro acc digits shift grid h
    rw [List.foldl_cons, List.foldl_cons, digitCount_cons]
    cases hd : digit? 16 c with
    | none =>
      rw [push_of_not_digit isFraction hd, Numeral.push, hd]
      simpa using ih h
    | some d =>
      obtain ⟨shift', h'⟩ := h.push_digit isFraction hd
      obtain ⟨shift'', h''⟩ := ih h'
      rw [nextGrid_nextGrid, Nat.add_comm 1] at h''
      rw [Numeral.push, hd]
      exact ⟨shift'', by simpa using h''⟩

/-- All digits of a mantissa are tracked, on the grid of the last fraction digit. -/
theorem tracks_ofDigits (whole fraction : List Char) (exponent : ℤ) :
    ∃ shift, Tracks (ofDigits whole fraction exponent) (value 16 (whole ++ fraction))
      (exponent - 4 * digitCount 16 fraction) shift := by
  have hstart : Tracks ⟨0, exponent, false⟩ 0 exponent 0 := by
    refine ⟨?_, ?_, ?_, ?_, fun _ => rfl, ?_⟩ <;> simp
  obtain ⟨shift, h⟩ := hstart.foldl_push false whole
  obtain ⟨shift', h'⟩ := h.foldl_push true fraction
  refine ⟨shift', ?_⟩
  rw [value, List.foldl_append]
  exact h'

/-! ## Rounding what is tracked -/

variable {K : Type*} [Field K] [LinearOrder K] [IsStrictOrderedRing K] [FloorSemiring K]

theorem Tracks.enclosedBy (h : Tracks acc digits grid shift) :
    EnclosedBy ((digits : K) * 2 ^ grid / 2 ^ acc.exponent) acc.mantissa acc.sticky := by
  have hpos : (0 : K) < 2 ^ shift := by positivity
  have hquot : (digits : K) * 2 ^ grid / 2 ^ acc.exponent = digits / 2 ^ shift := by
    rw [h.exponent_eq, two_zpow_add, zpow_natCast]
    have := (two_zpow_pos (K := K) grid).ne'
    field_simp
  rw [hquot]
  refine ⟨?_, ?_, ?_⟩
  · rw [le_div_iff₀ hpos]
    exact_mod_cast h.le
  · rw [div_lt_iff₀ hpos]
    exact_mod_cast h.lt
  · rw [div_eq_iff hpos.ne', ← h.exact_iff]
    exact_mod_cast Iff.rfl

/-- Digits are dropped only below a full mantissa. -/
theorem Tracks.le_mantissa_of_sticky (h : Tracks acc digits grid shift)
    (hsticky : acc.sticky = true) : 2 ^ (120 : ℕ) ≤ acc.mantissa := by
  by_contra hlt
  obtain rfl := h.stored (by omega)
  have hle := h.le
  have hlt := h.lt
  have := h.exact_iff.1 (by omega)
  simp [this] at hsticky

theorem Tracks.lt_ulpExponent (h : Tracks acc digits grid shift) {fmt : Format}
    (hmb : fmt.mantissaBits < 120) (hsticky : acc.sticky = true) :
    acc.exponent < fmt.ulpExponent ((digits : K) * 2 ^ grid) :=
  Format.lt_ulpExponent_of_enclosedBy h.enclosedBy (h.le_mantissa_of_sticky hsticky) hmb

/-- The tracked number is rounded correctly. -/
theorem Tracks.round_eq (h : Tracks acc digits grid shift) {fmt : Format}
    (heb : 2 ≤ fmt.exponentBits) (hmb : fmt.mantissaBits < 120) :
    acc.round fmt =
      if fmt.nearestBits ((digits : K) * 2 ^ grid) < fmt.infinityBits then
        some (fmt.nearestBits ((digits : K) * 2 ^ grid)) else none :=
  Format.round_eq heb h.enclosedBy fun hs => h.lt_ulpExponent hmb hs

/-! ## The enclosure of a mantissa -/

/-- The number lies in the step above the mantissa, at its lower end exactly if the flag is clear.
The flag is set only beside a full mantissa, and only zero has a mantissa of zero. -/
structure Encloses (acc : HexAccumulator) (x : ℚ) : Prop where
  mantissa_lt : acc.mantissa < 2 ^ (124 : ℕ)
  le : acc.mantissa * 2 ^ acc.exponent ≤ x
  lt : x < (acc.mantissa + 1) * 2 ^ acc.exponent
  eq_iff : x = acc.mantissa * 2 ^ acc.exponent ↔ acc.sticky = false
  full : acc.sticky = true → 2 ^ (120 : ℕ) ≤ acc.mantissa
  eq_zero_iff : acc.mantissa = 0 ↔ x = 0

/-- A mantissa of zero has room, so no digit but zeros was read. -/
theorem Tracks.mantissa_eq_zero_iff (h : Tracks acc digits grid shift) :
    acc.mantissa = 0 ↔ digits = 0 := by
  constructor
  · intro hzero
    have hlt := h.lt
    rw [h.stored (by omega), hzero] at hlt
    omega
  · rintro rfl
    have hpos := Nat.two_pow_pos shift
    exact (Nat.mul_eq_zero.1 (Nat.le_zero.1 h.le)).resolve_right hpos.ne'

theorem Tracks.encloses (h : Tracks acc digits grid shift) :
    Encloses acc ((digits : ℚ) * 2 ^ grid) := by
  have hpos := two_zpow_pos (K := ℚ) acc.exponent
  have hgrid := two_zpow_pos (K := ℚ) grid
  have hbetween := h.enclosedBy (K := ℚ)
  refine ⟨h.mantissa_lt, (le_div_iff₀ hpos).1 hbetween.le, (div_lt_iff₀ hpos).1 hbetween.lt, ?_,
    h.le_mantissa_of_sticky, ?_⟩
  · rw [← hbetween.eq_iff, div_eq_iff hpos.ne']
  · rw [h.mantissa_eq_zero_iff, mul_eq_zero, Nat.cast_eq_zero, or_iff_left hgrid.ne']

/-- Moving the point behind the last digit. -/
theorem value_append_mul_grid (whole fraction : List Char) (exponent : ℤ) :
    (value 16 (whole ++ fraction) : ℚ) * 2 ^ (exponent - 4 * digitCount 16 fraction) =
      (value 16 whole + value 16 fraction / 16 ^ digitCount 16 fraction) * 2 ^ exponent := by
  have hsixteen : (16 : ℚ) ^ digitCount 16 fraction = 2 ^ (4 * (digitCount 16 fraction : ℤ)) := by
    rw [zpow_mul, zpow_natCast]
    norm_num
  have hpos : (16 : ℚ) ^ digitCount 16 fraction ≠ 0 := by positivity
  rw [value_append, sub_eq_add_neg, two_zpow_add, zpow_neg, ← hsixteen]
  push_cast
  field_simp

/-- The digits of a mantissa, of any number and before and behind the point, are gathered into an
enclosure of the number that they write with the power of two. The first digits of a mantissa are
such digits too, so this holds after every digit. -/
theorem ofDigits_encloses (whole fraction : List Char) (exponent : ℤ) :
    Encloses (ofDigits whole fraction exponent)
      ((value 16 whole + value 16 fraction / 16 ^ digitCount 16 fraction) * 2 ^ exponent) := by
  obtain ⟨shift, h⟩ := tracks_ofDigits whole fraction exponent
  rw [← value_append_mul_grid]
  exact h.encloses

end HexAccumulator

end Literal

end Lanewise
