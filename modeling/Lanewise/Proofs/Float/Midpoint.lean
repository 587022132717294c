import Mathlib.Algebra.Order.Archimedean.Real.Basic
import Lanewise.Proofs.Float.Round
import Lanewise.Proofs.Machine.Round

/-!
# The exact rounding of a real number

A number is rounded up from odd bits exactly from the midpoint to the next value on
(`Format.succ_le_nearestBits_iff`). The last finite bits are odd, so a number is too large
exactly from `(2 - 2 ^ (-mantissaBits - 1)) * 2 ^ bias` on
(`Format.infinityBits_le_nearestBits_iff_le`). Below that there is one nearest pattern
(`Format.IsNearest.toNat_eq`).

`Format.IsSplit` says that a mantissa of at most 124 bits, a power of two and a flag stand for a
real number. Whatever the split, in words or with numbers of any size, the number is rounded to
its nearest pattern or refused as too large (`Format.round_isSplit`).
-/

namespace Lanewise

namespace Format

variable {K : Type*} [Field K] [LinearOrder K] [IsStrictOrderedRing K] [FloorSemiring K]
variable {fmt : Format} {x : K}

/-! ## Between two values -/

/-- Of two nearest values none has another value in between. -/
theorem not_between {low bits high : ℕ} (hlow : low < bits) (hhigh : bits < high)
    (hnearLow : |x - fmt.bitsValue K low| ≤ |x - fmt.bitsValue K bits|)
    (hnearHigh : |x - fmt.bitsValue K high| ≤ |x - fmt.bitsValue K bits|) : False := by
  have hbelow := fmt.strictMono_bitsValue (K := K) hlow
  have habove := fmt.strictMono_bitsValue (K := K) hhigh
  have hleft := two_mul_le_add hbelow hnearLow
  have hright := add_le_two_mul habove hnearHigh
  linarith

/-- From odd bits on, a number goes up from the midpoint to the next value on. -/
theorem succ_le_nearestBits_iff (hx : 0 ≤ x) {bits : ℕ} (hodd : bits % 2 = 1) :
    bits + 1 ≤ fmt.nearestBits x ↔ fmt.bitsValue K bits + fmt.bitsValue K (bits + 1) ≤ 2 * x := by
  have hmono := (fmt.strictMono_bitsValue (K := K)).monotone
  constructor
  · intro hle
    have hlt := fmt.strictMono_bitsValue (K := K) hle
    have hmid := add_le_two_mul hlt (abs_sub_nearestBits_le hx bits)
    linarith [hmono hle]
  · intro hmid
    by_contra hle
    have hlow : fmt.nearestBits x ≤ bits := by omega
    have hlt := fmt.strictMono_bitsValue (K := K) (Nat.lt_succ_of_le hlow)
    have hupper := two_mul_le_add hlt (abs_sub_nearestBits_le hx (bits + 1))
    -- The number is the midpoint, and the bits below it, being odd, are not chosen on a tie.
    have hvalue : fmt.bitsValue K (fmt.nearestBits x) = fmt.bitsValue K bits :=
      le_antisymm (hmono hlow) (by linarith)
    have hbits := (fmt.strictMono_bitsValue (K := K)).injective hvalue
    have htie : |x - fmt.bitsValue K (bits + 1)| = |x - fmt.bitsValue K (fmt.nearestBits x)| := by
      rw [hvalue, abs_of_nonpos (by linarith), abs_of_nonneg (by linarith)]
      linarith
    have heven := even_nearestBits_of_tie hx hlt.ne' htie
    omega

/-! ## The largest finite value -/

theorem infinityBits_pred (heb : 2 ≤ fmt.exponentBits) :
    fmt.infinityBits - 1 =
      (2 * fmt.bias - 1) * 2 ^ fmt.mantissaBits + (2 ^ (fmt.mantissaBits + 1) - 1) := by
  have hone := Nat.two_pow_pos fmt.mantissaBits
  have hbias := one_le_bias heb
  have htop : 2 * fmt.bias + 1 = (2 * fmt.bias - 1) + 2 := by omega
  rw [infinityBits, topExponent_eq, htop, Nat.add_mul, Nat.pow_succ]
  omega

/-- The bits before those of an infinity are all ones in the mantissa. -/
theorem infinityBits_pred_odd (heb : 2 ≤ fmt.exponentBits) : (fmt.infinityBits - 1) % 2 = 1 := by
  obtain ⟨n, hn⟩ : ∃ n, fmt.mantissaBits = n + 1 :=
    ⟨fmt.mantissaBits - 1, by have := fmt.mantissa_pos; omega⟩
  have hone := Nat.two_pow_pos n
  rw [infinityBits_pred heb, hn, Nat.pow_succ, Nat.pow_succ, ← Nat.mul_assoc]
  omega

theorem bitsValue_infinityBits_pred (heb : 2 ≤ fmt.exponentBits) :
    fmt.bitsValue K (fmt.infinityBits - 1) =
      (2 - 2 ^ (-(fmt.mantissaBits : ℤ))) * 2 ^ fmt.bias := by
  have hone := Nat.two_pow_pos (fmt.mantissaBits + 1)
  have hhidden : 2 ^ fmt.mantissaBits ≤ 2 ^ (fmt.mantissaBits + 1) - 1 := by
    have := Nat.two_pow_pos fmt.mantissaBits
    rw [Nat.pow_succ]
    omega
  have hbias := one_le_bias heb
  have hcast : ((2 ^ (fmt.mantissaBits + 1) - 1 : ℕ) : K) = 2 ^ (fmt.mantissaBits + 1) - 1 := by
    rw [Nat.cast_pred hone]
    push_cast
    rfl
  have hunit : ((2 * fmt.bias - 1 : ℕ) : ℤ) + fmt.unitExponent =
      -(fmt.mantissaBits : ℤ) + fmt.bias := by
    rw [unitExponent, minExponent]
    omega
  have hnext : ((fmt.mantissaBits + 1 : ℕ) : ℤ) + -(fmt.mantissaBits : ℤ) = 1 := by
    push_cast
    ring
  rw [infinityBits_pred heb, bitsValue, magnitudeUnits_field (Or.inr hhidden) (Nat.sub_le _ _)]
  push_cast
  rw [hcast, mul_assoc, ← zpow_natCast, ← zpow_natCast, ← zpow_natCast, ← two_zpow_add, hunit,
    two_zpow_add, ← mul_assoc, sub_mul, ← two_zpow_add, hnext, one_mul, zpow_one]

/-- A number is too large exactly from the midpoint between the largest value and the power of
two that an infinity counts as. -/
theorem infinityBits_le_nearestBits_iff_le (heb : 2 ≤ fmt.exponentBits) (hx : 0 ≤ x) :
    fmt.infinityBits ≤ fmt.nearestBits x ↔
      (2 - 2 ^ (-(fmt.mantissaBits : ℤ) - 1)) * 2 ^ fmt.bias ≤ x := by
  have hpos : fmt.infinityBits - 1 + 1 = fmt.infinityBits :=
    Nat.sub_add_cancel (Nat.zero_lt_of_lt (two_pow_lt_infinityBits heb))
  have hiff : fmt.infinityBits - 1 + 1 ≤ fmt.nearestBits x ↔ _ :=
    succ_le_nearestBits_iff hx (infinityBits_pred_odd heb)
  have hhalf : (2 : K) ^ (-(fmt.mantissaBits : ℤ)) = 2 * 2 ^ (-(fmt.mantissaBits : ℤ) - 1) := by
    rw [← zpow_one_add₀ two_ne_zero]
    congr 1
    ring
  have hnext : (2 : K) ^ ((fmt.bias : ℤ) + 1) = 2 * 2 ^ fmt.bias := by
    rw [zpow_add_one₀ two_ne_zero, zpow_natCast, mul_comm]
  rw [hpos, bitsValue_infinityBits, bitsValue_infinityBits_pred heb, hhalf, hnext] at hiff
  rw [hiff]
  constructor <;> intro h <;> linarith

/-! ## The nearest pattern -/

/-- The bits of a positive finite pattern. -/
theorem toNat_of_positive {p : fmt.Pattern} (h : isNegative p = false) : p.toNat = magnitude p := by
  conv_lhs => rw [← pattern_magnitude p, h, toNat_pattern false (magnitude_lt p)]
  simp

/-- There is no other nearest pattern. -/
theorem IsNearest.toNat_eq (hx : 0 ≤ x) (hlt : fmt.nearestBits x < fmt.infinityBits)
    {p : fmt.Pattern} (h : IsNearest x p) : p.toNat = fmt.nearestBits x := by
  have hbest := isNearest_nearestBits hx hlt
  have hmag := magnitude_pattern false (hlt.trans fmt.infinityBits_lt)
  have hbits := toNat_of_positive h.positive
  have hvalue : absValue K (fmt.pattern false (fmt.nearestBits x)) =
      fmt.bitsValue K (fmt.nearestBits x) := by rw [absValue_eq_bitsValue, hmag]
  have hnear := h.nearest _ hbest.finite
  rw [absValue_eq_bitsValue, hvalue, ← hbits] at hnear
  have hmid (bits : ℕ) : |x - fmt.bitsValue K (fmt.nearestBits x)| ≤ |x - fmt.bitsValue K bits| :=
    abs_sub_nearestBits_le hx bits
  have htie := le_antisymm hnear (hmid _)
  by_contra hne
  have hvalues := (fmt.strictMono_bitsValue (K := K)).injective.ne hne
  have heven := even_nearestBits_of_tie hx hvalues htie
  have heven' : p.toNat % 2 = 0 := by
    refine h.even _ hbest.finite ?_ ?_ <;> rw [hvalue, absValue_eq_bitsValue, ← hbits]
    · exact hvalues.symm
    · exact htie.symm
  -- Both are even, so odd bits lie in between, and would be nearer.
  rcases Nat.lt_or_gt_of_ne hne with hless | hmore
  · exact not_between (Nat.lt_succ_self _) (by omega) (htie.le.trans (hmid _)) (hmid _)
  · exact not_between (Nat.lt_succ_self _) (by omega) (hmid _) (htie.le.trans (hmid _))

/-! ## Splits of a number -/

/-- A mantissa of at most 124 bits, a power of two and a flag that stand for `x`. With a clear flag
`x` is the mantissa times the power. With a set flag it lies strictly between this multiple and the
next one, and the mantissa has at least 121 bits. -/
structure IsSplit (x : K) (mantissa : ℕ) (exponent : ℤ) (sticky : Bool) : Prop where
  mantissa_lt : mantissa < 2 ^ 124
  exponent_le : |exponent| ≤ 2 ^ 61
  full_of_set : sticky = true → 2 ^ 120 ≤ mantissa
  eq_of_clear : sticky = false → x = mantissa * 2 ^ exponent
  between_of_set :
    sticky = true → mantissa * 2 ^ exponent < x ∧ x < (mantissa + 1) * 2 ^ exponent

namespace IsSplit

variable {mantissa : ℕ} {exponent : ℤ} {sticky : Bool} (h : IsSplit x mantissa exponent sticky)

include h

theorem enclosedBy : EnclosedBy (x / 2 ^ exponent) mantissa sticky := by
  have hpos := two_zpow_pos (K := K) exponent
  cases sticky with
  | false =>
    have hx : x / 2 ^ exponent = mantissa := by
      rw [h.eq_of_clear rfl, mul_div_cancel_right₀ _ hpos.ne']
    exact ⟨hx.ge, by rw [hx]; exact lt_add_one _, by simp [hx]⟩
  | true =>
    have hlow := (lt_div_iff₀ hpos).2 (h.between_of_set rfl).1
    exact ⟨hlow.le, (div_lt_iff₀ hpos).2 (h.between_of_set rfl).2, by simp [hlow.ne']⟩

theorem nonneg : 0 ≤ x := by
  have hpos := two_zpow_pos (K := K) exponent
  have hle := (le_div_iff₀ hpos).1 h.enclosedBy.le
  exact (mul_nonneg (Nat.cast_nonneg _) hpos.le).trans hle

/-- The rounding of a split is the nearest value to the number. -/
theorem round_eq (heb : 2 ≤ fmt.exponentBits) (hmb : fmt.mantissaBits < 120) :
    fmt.round mantissa exponent sticky =
      if fmt.nearestBits x < fmt.infinityBits then some (fmt.nearestBits x) else none :=
  Format.round_eq heb h.enclosedBy fun hsticky =>
    lt_ulpExponent_of_enclosedBy h.enclosedBy (h.full_of_set hsticky) hmb

end IsSplit

/-- A number is rounded exactly, however it is split. The result is nothing if the number reaches
the midpoint between the largest value and the next power of two, and the bits of its nearest
pattern otherwise; it is the same for every split of the number, and the same in machine words. -/
theorem round_isSplit (heb : 2 ≤ fmt.exponentBits)
    (hwidth : fmt.mantissaBits + fmt.exponentBits ≤ 63) {x : ℝ} {mantissa : ℕ} {exponent : ℤ}
    {sticky : Bool} (h : IsSplit x mantissa exponent sticky) :
    (fmt.round mantissa exponent sticky = none ↔
      (2 - 2 ^ (-(fmt.mantissaBits : ℤ) - 1)) * 2 ^ fmt.bias ≤ x) ∧
    (∀ bits, fmt.round mantissa exponent sticky = some bits ↔
      x < (2 - 2 ^ (-(fmt.mantissaBits : ℤ) - 1)) * 2 ^ fmt.bias ∧
        ∃ p : fmt.Pattern, IsNearest x p ∧ p.toNat = bits) ∧
    (∀ mantissa' exponent' sticky', IsSplit x mantissa' exponent' sticky' →
      fmt.round mantissa' exponent' sticky' = fmt.round mantissa exponent sticky) ∧
    Machine.round fmt mantissa exponent sticky = pure (fmt.round mantissa exponent sticky) := by
  have hnonneg := h.nonneg
  have hmb : fmt.mantissaBits < 120 := by omega
  have hexponent := abs_le.1 h.exponent_le
  -- Both bounds say whether the nearest bits are finite.
  rw [← not_le, ← infinityBits_le_nearestBits_iff_le heb hnonneg, not_le]
  refine ⟨?_, fun bits => ?_, fun _ _ _ h' => ?_, ?_⟩
  · rw [h.round_eq heb hmb]
    split_ifs with hlt
    · simpa using hlt
    · simpa using hlt
  · rw [h.round_eq heb hmb]
    split_ifs with hlt
    · have hbits := toNat_pattern false (hlt.trans fmt.infinityBits_lt)
      constructor
      · intro hsome
        obtain rfl := Option.some.inj hsome
        exact ⟨hlt, _, isNearest_nearestBits hnonneg hlt, by simpa using hbits⟩
      · rintro ⟨-, p, hp, rfl⟩
        rw [hp.toNat_eq hnonneg hlt]
    · simp [hlt]
  · rw [h.round_eq heb hmb, h'.round_eq heb hmb]
  · exact Machine.round_eq hwidth h.mantissa_lt (by omega) sticky

/-- A tie in single precision that is lifted by a flag, and the same number without a flag. -/
theorem round_isSplit_aboveTie :
    (∃ p : binary32.Pattern, IsNearest ((2 ^ 121 + 2 ^ 97 + 1) * 2 ^ (-121 : ℤ) : ℝ) p ∧
      p.toNat = 0x3F800001) ∧
    binary32.round (2 ^ 121 + 2 ^ 97 + 1) (-121) false =
      binary32.round (2 ^ 120 + 2 ^ 96) (-120) true := by
  have hflag : IsSplit ((2 ^ 121 + 2 ^ 97 + 1) * 2 ^ (-121 : ℤ) : ℝ) (2 ^ 120 + 2 ^ 96) (-120)
      true := by
    refine ⟨by norm_num, by norm_num, fun _ => by norm_num, fun hclear => by simp at hclear,
      fun _ => ?_⟩
    norm_num
  have hclear : IsSplit ((2 ^ 121 + 2 ^ 97 + 1) * 2 ^ (-121 : ℤ) : ℝ) (2 ^ 121 + 2 ^ 97 + 1) (-121)
      false := by
    refine ⟨by norm_num, by norm_num, fun hset => by simp at hset, fun _ => ?_,
      fun hset => by simp at hset⟩
    norm_num
  have hround := @round_isSplit binary32 (by decide) (by decide) _ _ _ _ hflag
  exact ⟨((hround.2.1 _).1 (by decide)).2, hround.2.2.1 _ _ _ hclear⟩

end Format

end Lanewise
