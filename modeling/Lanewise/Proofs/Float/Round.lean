import Lanewise.Proofs.Float.Nearest

/-!
# Rounding is correct

`Format.round` gets a mantissa, a power of two and a sticky flag. `round_eq` says that its
result is `nearestBits x` for every number `x` that the three enclose, or nothing if these bits
are not finite. The flag may be set only if the last place of `x` lies above the mantissa.

A fraction is enclosed by its quotient on the grid of half of the least subnormal, so
`Format.roundRatio` rounds fractions correctly (`roundRatio_eq`).
-/

namespace Lanewise

variable {K : Type*} [Field K] [LinearOrder K] [IsStrictOrderedRing K] [FloorSemiring K]

namespace Format

variable {fmt : Format} {x : K} {mantissa : ℕ} {exponent : ℤ} {sticky : Bool}

/-- A mantissa in units of `2 ^ unit` is the enclosed number rounded to such units. -/
theorem toUnit_eq_halfEven (h : EnclosedBy (x / 2 ^ exponent) mantissa sticky) {unit : ℤ}
    (hunit : sticky = true → exponent < unit) :
    toUnit mantissa exponent unit sticky = halfEven (x / 2 ^ unit) := by
  unfold toUnit
  split_ifs with hle
  · have hclear : sticky = false := by
      cases sticky
      · rfl
      · exact absurd (hunit rfl) (not_lt.2 hle)
    have hx : x / 2 ^ unit = ((mantissa * 2 ^ (exponent - unit).toNat : ℕ) : K) := by
      have hexact := h.eq_iff.2 hclear
      rw [div_eq_iff (two_zpow_pos _).ne'] at hexact ⊢
      rw [hexact]
      push_cast
      rw [mul_assoc, ← zpow_natCast, ← two_zpow_add]
      congr 2
      omega
    rw [hx, halfEven_natCast]
  · rw [h.dropBits_eq_halfEven (by omega), div_div, ← zpow_natCast, ← two_zpow_add]
    congr 3
    omega

/-- The leading bit of a nonzero mantissa is the leading bit of the enclosed number. -/
theorem log_eq_of_enclosedBy (h : EnclosedBy (x / 2 ^ exponent) mantissa sticky)
    (hm : mantissa ≠ 0) : 0 < x ∧ Int.log 2 x = mantissa.log2 + exponent := by
  have hpos := two_zpow_pos (K := K) exponent
  have hle := (le_div_iff₀ hpos).1 h.le
  have hlt := (div_lt_iff₀ hpos).1 h.lt
  have hlow : (2 : K) ^ ((mantissa.log2 : ℤ) + exponent) ≤ x := by
    have hmant : (2 : K) ^ mantissa.log2 ≤ mantissa := by
      exact_mod_cast Nat.log2_self_le hm
    rw [two_zpow_add, zpow_natCast]
    exact (mul_le_mul_of_nonneg_right hmant hpos.le).trans hle
  have hhigh : x < 2 ^ ((mantissa.log2 : ℤ) + exponent + 1) := by
    have hmant : (mantissa : K) + 1 ≤ 2 ^ (mantissa.log2 + 1) := by
      exact_mod_cast @Nat.lt_log2_self mantissa
    have hexp : (mantissa.log2 : ℤ) + exponent + 1 = ((mantissa.log2 + 1 : ℕ) : ℤ) + exponent := by
      push_cast
      ring
    rw [hexp, two_zpow_add, zpow_natCast]
    exact hlt.trans_le (mul_le_mul_of_nonneg_right hmant hpos.le)
  have hx : 0 < x := (two_zpow_pos _).trans_le hlow
  refine ⟨hx, le_antisymm ?_ ((le_log_iff hx).2 hlow)⟩
  by_contra hgt
  exact absurd ((le_log_iff hx).1 (by omega : (mantissa.log2 : ℤ) + exponent + 1 ≤ Int.log 2 x))
    (not_le.2 hhigh)

/-- The last place of a number lies above a mantissa with more bits than the format keeps. -/
theorem lt_ulpExponent_of_enclosedBy (h : EnclosedBy (x / 2 ^ exponent) mantissa sticky) {n : ℕ}
    (hfull : 2 ^ n ≤ mantissa) (hmb : fmt.mantissaBits < n) : exponent < fmt.ulpExponent x := by
  have hm : mantissa ≠ 0 := by
    have := Nat.two_pow_pos n
    omega
  obtain ⟨hx, hlog⟩ := log_eq_of_enclosedBy h hm
  have hulp := fmt.log_sub_le_ulpExponent hx
  have hlog2 : n ≤ mantissa.log2 := (Nat.le_log2 hm).2 hfull
  omega

/-- With a mantissa of zero the enclosed number vanishes. -/
theorem nearestBits_eq_zero_of_enclosedBy (h : EnclosedBy (x / 2 ^ exponent) 0 sticky)
    (hsticky : sticky = true → exponent < fmt.ulpExponent x) : fmt.nearestBits x = 0 := by
  have hpos := two_zpow_pos (K := K) exponent
  have hx : 0 ≤ x := by
    have := (le_div_iff₀ hpos).1 h.le
    rwa [Nat.cast_zero, zero_mul] at this
  have hlt : x < 2 ^ exponent := by
    have := (div_lt_iff₀ hpos).1 h.lt
    rwa [Nat.cast_zero, zero_add, one_mul] at this
  refine nearestBits_eq_zero hx ?_
  cases sticky with
  | false =>
    have hzero := h.eq_iff.2 rfl
    rw [Nat.cast_zero, div_eq_zero_iff] at hzero
    rw [hzero.resolve_right hpos.ne']
    exact (two_zpow_pos _).le
  | true =>
    have hulp := hsticky rfl
    rcases fmt.ulpExponent_eq_or_le x with hu | ⟨-, hu⟩
    · exact hlt.le.trans (two_zpow_le (by omega))
    · exact absurd (hu.trans_lt hlt) (not_lt.2 (two_zpow_le (by omega)))

/-- The rounding of a mantissa is the rounding of the number that it encloses. -/
theorem round_eq (heb : 2 ≤ fmt.exponentBits)
    (h : EnclosedBy (x / 2 ^ exponent) mantissa sticky)
    (hsticky : sticky = true → exponent < fmt.ulpExponent x) :
    fmt.round mantissa exponent sticky =
      if fmt.nearestBits x < fmt.infinityBits then some (fmt.nearestBits x) else none := by
  have hinf := two_pow_lt_infinityBits heb
  by_cases hm : mantissa = 0
  · subst hm
    rw [nearestBits_eq_zero_of_enclosedBy h hsticky, round, if_pos rfl,
      if_pos ((Nat.zero_le _).trans_lt hinf)]
  · obtain ⟨hx, hlog⟩ := log_eq_of_enclosedBy h hm
    have hlt := lt_two_zpow_log x
    rw [hlog] at hlt
    rw [round, if_neg hm]
    simp only
    by_cases hvanish : (mantissa.log2 : ℤ) + exponent + 1 < fmt.unitExponent
    · have hzero : fmt.nearestBits x = 0 :=
        nearestBits_eq_zero hx.le (hlt.le.trans (two_zpow_le (by omega)))
      rw [if_pos hvanish, hzero, if_pos ((Nat.zero_le _).trans_lt hinf)]
    rw [if_neg hvanish]
    by_cases hsmall : (mantissa.log2 : ℤ) + exponent < fmt.minExponent
    · -- Below the least normal the unit is fixed and the result is finite.
      have hless : x < 2 ^ fmt.minExponent := hlt.trans_le (two_zpow_le (by omega))
      have hulp : fmt.ulpExponent x = fmt.unitExponent := by rw [ulpExponent, if_pos hless]
      rw [hulp] at hsticky
      rw [if_pos hsmall, if_pos ((nearestBits_le_of_lt hx.le hless).trans_lt hinf), nearestBits,
        hulp, toUnit_eq_halfEven h hsticky]
      simp
    · have hge : ¬ x < 2 ^ fmt.minExponent := by
        have hlow := two_zpow_log_le hx
        rw [hlog] at hlow
        exact not_lt.2 ((two_zpow_le (by omega)).trans hlow)
      have hulp : fmt.ulpExponent x = mantissa.log2 + exponent - fmt.mantissaBits := by
        rw [ulpExponent, if_neg hge, hlog]
      rw [hulp] at hsticky
      rw [if_neg hsmall, nearestBits, hulp, toUnit_eq_halfEven h hsticky]

/-! ## Fractions -/

/-- A fraction lies between its quotient and the next one on every grid. -/
theorem enclosedBy_quotient (places numerator : ℕ) {denominator : ℕ} (hd : 0 < denominator) :
    EnclosedBy ((numerator : K) / denominator / 2 ^ (-(places : ℤ)))
      (numerator * 2 ^ places / denominator)
      (numerator * 2 ^ places % denominator ≠ 0) := by
  have hdK : (0 : K) < denominator := by exact_mod_cast hd
  have hscaled : (numerator : K) / denominator / 2 ^ (-(places : ℤ)) =
      ((numerator * 2 ^ places : ℕ) : K) / denominator := by
    rw [zpow_neg, zpow_natCast, div_inv_eq_mul]
    push_cast
    ring
  rw [hscaled]
  obtain ⟨n, hn⟩ : ∃ n, n = numerator * 2 ^ places := ⟨_, rfl⟩
  rw [← hn]
  have hsplit : (n : K) = denominator * (n / denominator : ℕ) + (n % denominator : ℕ) := by
    exact_mod_cast (Nat.div_add_mod n denominator).symm
  have hrest : ((n % denominator : ℕ) : K) < denominator := by
    exact_mod_cast Nat.mod_lt n hd
  have hrest0 : (0 : K) ≤ (n % denominator : ℕ) := Nat.cast_nonneg _
  refine ⟨?_, ?_, ?_⟩
  · rw [le_div_iff₀ hdK]
    linarith
  · rw [div_lt_iff₀ hdK]
    linarith
  · rw [div_eq_iff hdK.ne', decide_eq_false_iff_not, not_not, ← Nat.cast_eq_zero (R := K)]
    constructor <;> intro h <;> linarith

theorem unitExponent_eq (fmt : Format) : fmt.unitExponent = 1 - fmt.halfUnitPlaces := by
  rw [unitExponent, minExponent, halfUnitPlaces]
  push_cast
  ring

theorem unitExponent_nonpos (fmt : Format) : fmt.unitExponent ≤ 0 := by
  have := fmt.mantissa_pos
  rw [unitExponent, minExponent]
  omega

theorem roundRatio_eq (heb : 2 ≤ fmt.exponentBits) (numerator : ℕ) {denominator : ℕ}
    (hd : 0 < denominator) :
    fmt.roundRatio numerator denominator =
      if fmt.nearestBits ((numerator : K) / denominator) < fmt.infinityBits then
        some (fmt.nearestBits ((numerator : K) / denominator)) else none := by
  rw [roundRatio]
  refine round_eq heb (enclosedBy_quotient fmt.halfUnitPlaces numerator hd) fun _ => ?_
  have := fmt.unitExponent_le_ulpExponent ((numerator : K) / denominator)
  have := fmt.unitExponent_eq
  omega

end Format

end Lanewise
