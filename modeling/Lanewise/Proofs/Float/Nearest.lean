import Mathlib.Data.Int.Log
import Lanewise.Proofs.HalfEven
import Lanewise.Proofs.Float.Magnitude

/-!
# The nearest value of a format

`IsNearest x p` says what rounding a nonnegative number `x` to a format means : `p` is a
finite pattern, no finite magnitude is nearer to `x`, and if another one is equally near then
the last bit of `p` is zero.

`nearestBits` computes such a pattern from the number itself. The number is measured in units
of the last place, `2 ^ ulpExponent`, and taken to the nearest integer; the field of the unit is
added (`isNearest_nearestBits`). A number is too large if it becomes `2 ^ (bias + 1)` or more
when only its significant bits are limited (`infinityBits_le_nearestBits_iff`). That the bits are
the nearest is enough for the order : a greater number never has lesser bits (`nearestBits_mono`).

`round_eq` : the bits that the library finds for a mantissa, a power of two and a sticky flag
are these bits for every number that the three enclose. Hence they depend on the number only.
-/

namespace Lanewise

variable {K : Type*} [Field K] [LinearOrder K] [IsStrictOrderedRing K] [FloorSemiring K]

theorem two_zpow_pos (e : ℤ) : (0 : K) < 2 ^ e :=
  zpow_pos two_pos e

theorem two_zpow_le {e f : ℤ} (h : e ≤ f) : (2 : K) ^ e ≤ 2 ^ f :=
  zpow_le_zpow_right₀ one_le_two h

theorem two_zpow_add (e f : ℤ) : (2 : K) ^ (e + f) = 2 ^ e * 2 ^ f :=
  zpow_add₀ two_pos.ne' e f

theorem two_zpow_log_le {x : K} (hx : 0 < x) : 2 ^ Int.log 2 x ≤ x := by
  exact_mod_cast Int.zpow_log_le_self Nat.one_lt_two hx

theorem lt_two_zpow_log (x : K) : x < 2 ^ (Int.log 2 x + 1) := by
  exact_mod_cast Int.lt_zpow_succ_log_self Nat.one_lt_two x

theorem le_log_iff {x : K} (hx : 0 < x) {e : ℤ} : e ≤ Int.log 2 x ↔ 2 ^ e ≤ x := by
  rw [← Int.zpow_le_iff_le_log Nat.one_lt_two hx]
  norm_cast

/-! ## Rounding to a number of significant bits -/

/-- A nonnegative number with `digits` significant bits nearest to `x`, whatever its exponent. -/
def roundSignificant (digits : ℕ) (x : K) : K :=
  halfEven (x / 2 ^ (Int.log 2 x - (digits - 1))) * 2 ^ (Int.log 2 x - (digits - 1))

/-- Rounding on the grid of step `2 ^ u` does not cross a power of two on the grid. -/
theorem halfEven_mul_le {x : K} (hx : 0 ≤ x) {u : ℤ} {n : ℕ} (h : x ≤ 2 ^ (u + n)) :
    halfEven (x / 2 ^ u) ≤ 2 ^ n := by
  refine halfEven_le (div_nonneg hx (two_zpow_pos u).le) ?_
  rw [div_le_iff₀ (two_zpow_pos u), mul_comm]
  rw [two_zpow_add] at h
  exact_mod_cast h

theorem le_halfEven_mul {x : K} (hx : 0 ≤ x) {u : ℤ} {n : ℕ} (h : 2 ^ (u + n) ≤ x) :
    2 ^ n ≤ halfEven (x / 2 ^ u) := by
  refine le_halfEven (div_nonneg hx (two_zpow_pos u).le) ?_
  rw [le_div_iff₀ (two_zpow_pos u), mul_comm]
  rw [two_zpow_add] at h
  exact_mod_cast h

theorem roundSignificant_le {x : K} (hx : 0 < x) {n : ℕ} {e : ℤ} (h : x < 2 ^ e) :
    roundSignificant (n + 1) x ≤ 2 ^ e := by
  have hlog : Int.log 2 x + 1 ≤ e := by
    by_contra hlt
    have := (le_log_iff hx).1 (by omega : e ≤ Int.log 2 x)
    exact absurd h (not_lt.2 this)
  have hunit : Int.log 2 x - (((n + 1 : ℕ) : ℤ) - 1) = Int.log 2 x - n := by
    push_cast
    ring
  rw [roundSignificant, hunit]
  have hle : halfEven (x / 2 ^ (Int.log 2 x - n)) ≤ 2 ^ (n + 1) := by
    refine halfEven_mul_le hx.le ?_
    have hexp : Int.log 2 x - n + ((n + 1 : ℕ) : ℤ) = Int.log 2 x + 1 := by
      push_cast
      ring
    rw [hexp]
    exact (lt_two_zpow_log x).le
  calc (halfEven (x / 2 ^ (Int.log 2 x - n)) : K) * 2 ^ (Int.log 2 x - n)
      ≤ 2 ^ (n + 1) * 2 ^ (Int.log 2 x - n) :=
        mul_le_mul_of_nonneg_right (by exact_mod_cast hle) (two_zpow_pos _).le
    _ = 2 ^ (Int.log 2 x + 1) := by
        rw [← zpow_natCast, ← two_zpow_add]
        congr 1
        push_cast
        ring
    _ ≤ 2 ^ e := two_zpow_le hlog

theorem le_roundSignificant {x : K} {n : ℕ} {e : ℤ} (h : 2 ^ e ≤ x) :
    2 ^ e ≤ roundSignificant (n + 1) x := by
  have hx : 0 < x := (two_zpow_pos e).trans_le h
  have hlog : e ≤ Int.log 2 x := (le_log_iff hx).2 h
  have hunit : Int.log 2 x - (((n + 1 : ℕ) : ℤ) - 1) = Int.log 2 x - n := by
    push_cast
    ring
  rw [roundSignificant, hunit]
  have hle : 2 ^ n ≤ halfEven (x / 2 ^ (Int.log 2 x - n)) := by
    refine le_halfEven_mul hx.le ?_
    rw [Int.sub_add_cancel]
    exact two_zpow_log_le hx
  calc (2 : K) ^ e ≤ 2 ^ Int.log 2 x := two_zpow_le hlog
    _ = 2 ^ n * 2 ^ (Int.log 2 x - n) := by
        rw [← zpow_natCast, ← two_zpow_add]
        congr 1
        ring
    _ ≤ (halfEven (x / 2 ^ (Int.log 2 x - n)) : K) * 2 ^ (Int.log 2 x - n) :=
        mul_le_mul_of_nonneg_right (by exact_mod_cast hle) (two_zpow_pos _).le

namespace Format

/-! ## Values -/

/-- The magnitude of a finite pattern. -/
def absValue (K : Type*) [Field K] {fmt : Format} (x : fmt.Pattern) : K :=
  units x * 2 ^ fmt.unitExponent

/-- The pattern `p` is `x` rounded to nearest, ties to even. -/
structure IsNearest {fmt : Format} (x : K) (p : fmt.Pattern) : Prop where
  finite : IsFinite p
  positive : isNegative p = false
  nearest : ∀ q : fmt.Pattern, IsFinite q → |x - absValue K p| ≤ |x - absValue K q|
  even : ∀ q : fmt.Pattern, IsFinite q → absValue K q ≠ absValue K p →
    |x - absValue K q| = |x - absValue K p| → p.toNat % 2 = 0

variable (fmt : Format)

/-- The value of magnitude bits. -/
def bitsValue (K : Type*) [Field K] (bits : ℕ) : K :=
  fmt.magnitudeUnits bits * 2 ^ fmt.unitExponent

theorem strictMono_bitsValue : StrictMono (fmt.bitsValue K) := fun a b h => by
  refine mul_lt_mul_of_pos_right ?_ (two_zpow_pos _)
  exact_mod_cast fmt.strictMono_magnitudeUnits h

/-- The exponent of the last place that a nonnegative number is rounded to. -/
def ulpExponent (x : K) : ℤ :=
  if x < 2 ^ fmt.minExponent then fmt.unitExponent else Int.log 2 x - fmt.mantissaBits

/-- The magnitude bits of the value nearest to a nonnegative number. -/
def nearestBits (x : K) : ℕ :=
  (fmt.ulpExponent x - fmt.unitExponent).toNat * 2 ^ fmt.mantissaBits +
    halfEven (x / 2 ^ fmt.ulpExponent x)

variable {x : K}

/-! ## The unit of the last place -/

/-- Either the unit is the least one, or the number is large enough for the hidden bit. -/
theorem ulpExponent_eq_or_le (x : K) : fmt.ulpExponent x = fmt.unitExponent ∨
    fmt.unitExponent ≤ fmt.ulpExponent x ∧ 2 ^ (fmt.ulpExponent x + fmt.mantissaBits) ≤ x := by
  unfold ulpExponent
  split_ifs with h
  · exact Or.inl rfl
  · have hle := not_lt.1 h
    have hpos : 0 < x := (two_zpow_pos _).trans_le hle
    have hlog := (le_log_iff hpos).2 hle
    refine Or.inr ⟨?_, ?_⟩
    · rw [unitExponent]
      omega
    · rw [Int.sub_add_cancel]
      exact two_zpow_log_le hpos

theorem unitExponent_le_ulpExponent (x : K) : fmt.unitExponent ≤ fmt.ulpExponent x := by
  rcases fmt.ulpExponent_eq_or_le x with h | h
  · exact h.ge
  · exact h.1

/-- A number has at most one bit more than the mantissa before its last place. -/
theorem lt_two_zpow_ulpExponent (x : K) :
    x < 2 ^ (fmt.ulpExponent x + ((fmt.mantissaBits + 1 : ℕ) : ℤ)) := by
  have hexp : ∀ u : ℤ, u + ((fmt.mantissaBits + 1 : ℕ) : ℤ) = u + fmt.mantissaBits + 1 := by
    intro u
    push_cast
    ring
  rw [hexp]
  unfold ulpExponent
  split_ifs with h
  · refine h.trans_le (two_zpow_le ?_)
    rw [unitExponent]
    omega
  · rw [Int.sub_add_cancel]
    exact lt_two_zpow_log x

theorem log_sub_le_ulpExponent (hx : 0 < x) :
    Int.log 2 x - fmt.mantissaBits ≤ fmt.ulpExponent x := by
  unfold ulpExponent
  split_ifs with h
  · have hlog : Int.log 2 x < fmt.minExponent := by
      by_contra hle
      exact absurd h (not_lt.2 ((le_log_iff hx).1 (not_lt.1 hle)))
    rw [unitExponent]
    omega
  · exact le_rfl

/-! ## The nearest bits -/

variable {fmt}

/-- The nearest bits stand for the number rounded in units of the last place. -/
theorem bitsValue_nearestBits (hx : 0 ≤ x) :
    fmt.bitsValue K (fmt.nearestBits x) =
      halfEven (x / 2 ^ fmt.ulpExponent x) * 2 ^ fmt.ulpExponent x := by
  have hunit := fmt.unitExponent_le_ulpExponent x
  have hle := halfEven_mul_le hx (fmt.lt_two_zpow_ulpExponent x).le
  have hnormal : (fmt.ulpExponent x - fmt.unitExponent).toNat = 0 ∨
      2 ^ fmt.mantissaBits ≤ halfEven (x / 2 ^ fmt.ulpExponent x) := by
    rcases fmt.ulpExponent_eq_or_le x with h | h
    · exact Or.inl (by omega)
    · exact Or.inr (le_halfEven_mul hx h.2)
  rw [bitsValue, nearestBits, magnitudeUnits_field hnormal hle]
  push_cast
  rw [mul_assoc, ← zpow_natCast, ← two_zpow_add]
  congr 2
  omega

/-- A value is a multiple of the last place of `x`, or it is below a power of two that `x` is
not below. -/
theorem exists_mul_or_lt (fmt : Format) (x : K) (bits : ℕ) :
    (∃ j : ℕ, fmt.bitsValue K bits = j * 2 ^ fmt.ulpExponent x) ∨
      2 ^ (fmt.ulpExponent x + fmt.mantissaBits) ≤ x ∧
        fmt.bitsValue K bits < 2 ^ (fmt.ulpExponent x + fmt.mantissaBits) := by
  obtain ⟨field, significand, rfl, hnormal, hlt⟩ := fmt.exists_field bits
  have hvalue : fmt.bitsValue K (field * 2 ^ fmt.mantissaBits + significand) =
      significand * 2 ^ (field + fmt.unitExponent) := by
    rw [bitsValue, magnitudeUnits_field hnormal hlt.le, two_zpow_add, zpow_natCast]
    push_cast
    ring
  rw [hvalue]
  by_cases hle : fmt.ulpExponent x ≤ field + fmt.unitExponent
  · refine Or.inl ⟨significand * 2 ^ (field + fmt.unitExponent - fmt.ulpExponent x).toNat, ?_⟩
    push_cast
    rw [mul_assoc, ← zpow_natCast, ← two_zpow_add]
    congr 2
    omega
  · right
    rcases fmt.ulpExponent_eq_or_le x with h | h
    · omega
    · refine ⟨h.2, ?_⟩
      calc (significand : K) * 2 ^ (field + fmt.unitExponent)
          < 2 ^ (fmt.mantissaBits + 1) * 2 ^ (field + fmt.unitExponent) :=
            mul_lt_mul_of_pos_right (by exact_mod_cast hlt) (two_zpow_pos _)
        _ = 2 ^ ((fmt.mantissaBits + 1 : ℕ) + (field + fmt.unitExponent)) := by
            rw [two_zpow_add ((fmt.mantissaBits + 1 : ℕ) : ℤ), zpow_natCast]
        _ ≤ 2 ^ (fmt.ulpExponent x + fmt.mantissaBits) := two_zpow_le (by push_cast; omega)

/-- Distances on a grid are distances of integers. -/
theorem abs_sub_mul_two_zpow (x : K) (u : ℤ) (j : ℕ) :
    |x - j * 2 ^ u| = |x / 2 ^ u - j| * 2 ^ u := by
  have hpos := two_zpow_pos (K := K) u
  rw [← abs_of_pos hpos, ← abs_mul, abs_of_pos hpos, sub_mul, div_mul_cancel₀ _ hpos.ne']

theorem abs_sub_halfEven_mul_le (hx : 0 ≤ x) (u : ℤ) (j : ℕ) :
    |x - halfEven (x / 2 ^ u) * 2 ^ u| ≤ |x - j * 2 ^ u| := by
  rw [abs_sub_mul_two_zpow, abs_sub_mul_two_zpow]
  exact mul_le_mul_of_nonneg_right
    (abs_sub_halfEven_le (div_nonneg hx (two_zpow_pos u).le) j) (two_zpow_pos u).le

/-- The power of two at or below `x` is nearer to `x` than any value below it. -/
theorem abs_sub_lt_of_lt (hx : 0 ≤ x) {u : ℤ} {n : ℕ} {v : K} (hle : 2 ^ (u + n) ≤ x)
    (hlt : v < 2 ^ (u + n)) : |x - halfEven (x / 2 ^ u) * 2 ^ u| < |x - v| := by
  have hgrid : (2 : K) ^ (u + n) = ((2 ^ n : ℕ) : K) * 2 ^ u := by
    rw [two_zpow_add, mul_comm, zpow_natCast]
    push_cast
    rfl
  have hnear := abs_sub_halfEven_mul_le hx u (2 ^ n)
  rw [← hgrid, abs_of_nonneg (sub_nonneg.2 hle)] at hnear
  rw [abs_of_pos (by linarith : 0 < x - v)]
  linarith

theorem abs_sub_nearestBits_le (hx : 0 ≤ x) (bits : ℕ) :
    |x - fmt.bitsValue K (fmt.nearestBits x)| ≤ |x - fmt.bitsValue K bits| := by
  rw [bitsValue_nearestBits hx]
  rcases fmt.exists_mul_or_lt x bits with ⟨j, hj⟩ | ⟨hle, hlt⟩
  · rw [hj]
    exact abs_sub_halfEven_mul_le hx _ j
  · exact (abs_sub_lt_of_lt hx hle hlt).le

theorem even_nearestBits_of_tie (hx : 0 ≤ x) {bits : ℕ}
    (hne : fmt.bitsValue K bits ≠ fmt.bitsValue K (fmt.nearestBits x))
    (htie : |x - fmt.bitsValue K bits| = |x - fmt.bitsValue K (fmt.nearestBits x)|) :
    fmt.nearestBits x % 2 = 0 := by
  rw [bitsValue_nearestBits hx] at hne htie
  rcases fmt.exists_mul_or_lt x bits with ⟨j, hj⟩ | ⟨hle, hlt⟩
  · rw [hj] at hne htie
    rw [abs_sub_mul_two_zpow, abs_sub_mul_two_zpow,
      mul_left_inj' (two_zpow_pos _).ne'] at htie
    have heven := even_halfEven_of_tie (div_nonneg hx (two_zpow_pos _).le)
      (fun h => hne (by rw [h])) htie
    obtain ⟨n, hn⟩ : ∃ n, fmt.mantissaBits = n + 1 :=
      ⟨fmt.mantissaBits - 1, by have := fmt.mantissa_pos; omega⟩
    rw [nearestBits, hn, Nat.pow_succ, ← Nat.mul_assoc]
    omega
  · exact absurd htie (abs_sub_lt_of_lt hx hle hlt).ne'

omit [LinearOrder K] [IsStrictOrderedRing K] [FloorSemiring K] in
theorem absValue_eq_bitsValue (q : fmt.Pattern) :
    absValue K q = fmt.bitsValue K (magnitude q) := by
  rw [absValue, bitsValue, units_eq_magnitudeUnits]

/-- Unless the number is too large, its nearest bits are its rounding. -/
theorem isNearest_nearestBits (hx : 0 ≤ x) (h : fmt.nearestBits x < fmt.infinityBits) :
    IsNearest x (fmt.pattern false (fmt.nearestBits x)) := by
  have hlt := h.trans fmt.infinityBits_lt
  have hmag : magnitude (fmt.pattern false (fmt.nearestBits x)) = _ := magnitude_pattern false hlt
  refine ⟨?_, isNegative_pattern false hlt, fun q _ => ?_, fun q _ hne htie => ?_⟩
  · rwa [isFinite_iff, hmag]
  · rw [absValue_eq_bitsValue, absValue_eq_bitsValue, hmag]
    exact abs_sub_nearestBits_le hx _
  · rw [absValue_eq_bitsValue, absValue_eq_bitsValue, hmag] at hne htie
    rw [toNat_pattern false hlt]
    simpa using even_nearestBits_of_tie hx hne htie

/-- The bits of a value are the nearest ones to it. -/
theorem nearestBits_bitsValue (bits : ℕ) : fmt.nearestBits (fmt.bitsValue K bits) = bits := by
  have hnonneg : 0 ≤ fmt.bitsValue K bits :=
    mul_nonneg (Nat.cast_nonneg _) (two_zpow_pos _).le
  have hle : |fmt.bitsValue K bits - fmt.bitsValue K (fmt.nearestBits (fmt.bitsValue K bits))| ≤
      |fmt.bitsValue K bits - fmt.bitsValue K bits| := abs_sub_nearestBits_le hnonneg bits
  rw [sub_self, abs_zero] at hle
  have heq := sub_eq_zero.1 (abs_eq_zero.1 (le_antisymm hle (abs_nonneg _)))
  exact fmt.strictMono_bitsValue.injective heq.symm

/-! ## The order of the roundings -/

section Midpoint

omit [FloorSemiring K]

/-- A number is nearer to `p` than to `q` only on the side of `p` of their midpoint. -/
theorem sub_mul_add_le {p q : K} (h : |x - p| ≤ |x - q|) :
    (p - q) * (p + q) ≤ (p - q) * (2 * x) := by
  have hsq := sq_le_sq.2 h
  linarith [sq (x - p), sq (x - q)]

/-- A number that is nearer to the greater of two lies above their midpoint. -/
theorem add_le_two_mul {p q : K} (hlt : q < p) (h : |x - p| ≤ |x - q|) : p + q ≤ 2 * x :=
  le_of_mul_le_mul_left (sub_mul_add_le h) (sub_pos.2 hlt)

/-- A number that is nearer to the lesser of two lies below their midpoint. -/
theorem two_mul_le_add {p q : K} (hlt : p < q) (h : |x - p| ≤ |x - q|) : 2 * x ≤ p + q :=
  (mul_le_mul_left_of_neg (sub_neg.2 hlt)).1 (sub_mul_add_le h)

end Midpoint

/-- Rounding keeps the order. -/
theorem nearestBits_mono {y : K} (hx : 0 ≤ x) (hxy : x ≤ y) :
    fmt.nearestBits x ≤ fmt.nearestBits y := by
  by_contra hlt
  obtain ⟨p, hp⟩ : ∃ p, p = fmt.bitsValue K (fmt.nearestBits x) := ⟨_, rfl⟩
  obtain ⟨q, hq⟩ : ∃ q, q = fmt.bitsValue K (fmt.nearestBits y) := ⟨_, rfl⟩
  have hqp : q < p := by
    rw [hp, hq]
    exact fmt.strictMono_bitsValue (not_le.1 hlt)
  have hnearX : |x - p| ≤ |x - q| := by
    rw [hp, hq]
    exact abs_sub_nearestBits_le hx _
  have hnearY : |y - q| ≤ |y - p| := by
    rw [hp, hq]
    exact abs_sub_nearestBits_le (hx.trans hxy) _
  -- The midpoint of `q` and `p` lies between the numbers, on the wrong side of each.
  have hmidX := add_le_two_mul hqp hnearX
  have hmidY := two_mul_le_add hqp hnearY
  have hyx : y ≤ x := by linarith
  rw [le_antisymm hxy hyx] at hlt
  exact hlt le_rfl

/-! ## Numbers that are too small or too large -/

theorem minExponent_le_bias (h : 2 ≤ fmt.exponentBits) : fmt.minExponent ≤ fmt.bias := by
  have htwo : 2 ^ 1 ≤ 2 ^ (fmt.exponentBits - 1) :=
    Nat.pow_le_pow_right Nat.two_pos (by omega)
  rw [minExponent, bias]
  omega

theorem one_le_bias (heb : 2 ≤ fmt.exponentBits) : 1 ≤ fmt.bias := by
  have := minExponent_le_bias heb
  rw [minExponent] at this
  omega

/-- The finite fields lie around the bias. -/
theorem topExponent_eq (fmt : Format) : fmt.topExponent = 2 * fmt.bias + 1 := by
  have hpos := Nat.two_pow_pos (fmt.exponentBits - 1)
  have htop : 2 ^ fmt.exponentBits = 2 * 2 ^ (fmt.exponentBits - 1) := by
    rw [← Nat.pow_succ']
    congr 1
    have := fmt.exponent_pos
    omega
  rw [topExponent, bias]
  omega

/-- The first bits that are not finite stand for the power of two after the largest value. -/
theorem bitsValue_infinityBits : fmt.bitsValue K fmt.infinityBits = 2 ^ ((fmt.bias : ℤ) + 1) := by
  rw [bitsValue, infinityBits, topExponent_eq, Nat.succ_mul,
    magnitudeUnits_field (Or.inr le_rfl) (Nat.pow_le_pow_right Nat.two_pos (Nat.le_succ _))]
  push_cast
  rw [← zpow_natCast, ← zpow_natCast, ← two_zpow_add, ← two_zpow_add]
  congr 1
  rw [unitExponent, minExponent]
  push_cast
  ring

/-- At most half of the least subnormal becomes zero. -/
theorem nearestBits_eq_zero (hx : 0 ≤ x) (h : x ≤ 2 ^ (fmt.unitExponent - 1)) :
    fmt.nearestBits x = 0 := by
  have hsmall : x < 2 ^ fmt.minExponent := by
    refine h.trans_lt (zpow_lt_zpow_right₀ one_lt_two ?_)
    rw [unitExponent]
    omega
  have hzero : halfEven (x / 2 ^ fmt.unitExponent) = 0 := by
    refine halfEven_eq_zero (div_nonneg hx (two_zpow_pos _).le) ?_
    rw [div_le_iff₀ (two_zpow_pos _), one_div, ← zpow_neg_one, ← two_zpow_add]
    rwa [Int.add_comm, ← Int.sub_eq_add_neg]
  simp [nearestBits, ulpExponent, hsmall, hzero]

/-- A number below the least normal does not round to more than it. -/
theorem nearestBits_le_of_lt (hx : 0 ≤ x) (h : x < 2 ^ fmt.minExponent) :
    fmt.nearestBits x ≤ 2 ^ fmt.mantissaBits := by
  have hle : halfEven (x / 2 ^ fmt.unitExponent) ≤ 2 ^ fmt.mantissaBits := by
    refine halfEven_mul_le hx ?_
    rw [unitExponent, Int.sub_add_cancel]
    exact h.le
  simpa [nearestBits, ulpExponent, h] using hle

theorem two_pow_lt_infinityBits (heb : 2 ≤ fmt.exponentBits) :
    2 ^ fmt.mantissaBits < fmt.infinityBits := by
  have htop : 2 ^ 2 ≤ 2 ^ fmt.exponentBits := Nat.pow_le_pow_right Nat.two_pos heb
  have hone := Nat.two_pow_pos fmt.mantissaBits
  rw [infinityBits, topExponent]
  exact lt_mul_of_one_lt_left hone (by omega)

/-- The nearest bits are those of an infinity exactly if the number becomes too large when only
its significant bits are limited. -/
theorem infinityBits_le_nearestBits_iff (heb : 2 ≤ fmt.exponentBits) (hx : 0 ≤ x) :
    fmt.infinityBits ≤ fmt.nearestBits x ↔
      2 ^ ((fmt.bias : ℤ) + 1) ≤ roundSignificant (fmt.mantissaBits + 1) x := by
  have hbias := minExponent_le_bias heb
  rw [← (fmt.strictMono_bitsValue (K := K)).le_iff_le, bitsValue_infinityBits]
  by_cases hsmall : x < 2 ^ fmt.minExponent
  · -- Both sides are false : neither rounding passes the least normal.
    have hlt : (2 : K) ^ fmt.minExponent < 2 ^ ((fmt.bias : ℤ) + 1) :=
      zpow_lt_zpow_right₀ one_lt_two (by omega)
    have hbits : fmt.bitsValue K (fmt.nearestBits x) ≤ 2 ^ fmt.minExponent := by
      have hle := (fmt.strictMono_bitsValue (K := K)).monotone (nearestBits_le_of_lt hx hsmall)
      refine hle.trans (le_of_eq ?_)
      have hfield : fmt.magnitudeUnits (0 * 2 ^ fmt.mantissaBits + 2 ^ fmt.mantissaBits) = _ :=
        magnitudeUnits_field (Or.inl rfl)
          (Nat.pow_le_pow_right Nat.two_pos (Nat.le_succ fmt.mantissaBits))
      rw [Nat.zero_mul, Nat.zero_add, Nat.pow_zero, Nat.mul_one] at hfield
      rw [bitsValue, hfield]
      push_cast
      rw [← zpow_natCast, ← two_zpow_add, unitExponent]
      congr 1
      ring
    have hsig : roundSignificant (fmt.mantissaBits + 1) x ≤ 2 ^ fmt.minExponent := by
      rcases hx.eq_or_lt with rfl | hpos
      · simpa [roundSignificant, halfEven] using (two_zpow_pos fmt.minExponent).le
      · exact roundSignificant_le hpos hsmall
    exact ⟨fun h => absurd (h.trans hbits) (not_le.2 hlt),
      fun h => absurd (h.trans hsig) (not_le.2 hlt)⟩
  · have hulp : fmt.ulpExponent x = Int.log 2 x - (((fmt.mantissaBits + 1 : ℕ) : ℤ) - 1) := by
      rw [ulpExponent, if_neg hsmall]
      push_cast
      ring
    rw [bitsValue_nearestBits hx, roundSignificant, hulp]

/-- A number beyond the power of two that an infinity counts as is too large. -/
theorem infinityBits_le_of_le (heb : 2 ≤ fmt.exponentBits) (hx : 2 ^ ((fmt.bias : ℤ) + 1) ≤ x) :
    fmt.infinityBits ≤ fmt.nearestBits x :=
  (infinityBits_le_nearestBits_iff heb ((two_zpow_pos _).le.trans hx)).2 (le_roundSignificant hx)

end Format

end Lanewise
