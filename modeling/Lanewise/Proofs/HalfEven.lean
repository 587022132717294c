import Mathlib.Algebra.Order.Floor.Semiring
import Mathlib.Algebra.Order.Archimedean.Basic
import Mathlib.Tactic.Linarith
import Mathlib.Tactic.Ring
import Mathlib.Tactic.FieldSimp
import Lanewise.Float.Round

/-!
# Rounding half to even

`halfEven` takes a nonnegative number to the nearest natural number, and a number halfway
between two to the even one. Two properties pin it down : no natural number is nearer
(`abs_sub_halfEven_le`), and if another one is equally near then the result is even
(`even_halfEven_of_tie`).

`dropBits_eq_halfEven` says that rounding bits away from a mantissa with a sticky flag is
this rounding of every number that the mantissa and the flag enclose.
-/

namespace Lanewise

variable {K : Type*} [Field K] [LinearOrder K] [IsStrictOrderedRing K] [FloorSemiring K]

/-- The natural number nearest to a nonnegative number; of two equally near ones the even one. -/
def halfEven (x : K) : ℕ :=
  if x - ⌊x⌋₊ < ⌊x⌋₊ + 1 - x ∨ x - ⌊x⌋₊ = ⌊x⌋₊ + 1 - x ∧ ⌊x⌋₊ % 2 = 0 then ⌊x⌋₊ else ⌊x⌋₊ + 1

variable {x y : K}

theorem abs_sub_halfEven_le_half (hx : 0 ≤ x) : |x - halfEven x| ≤ 1 / 2 := by
  have hlow := Nat.floor_le hx
  have hhigh := Nat.lt_floor_add_one x
  unfold halfEven
  split_ifs with h
  · rw [abs_of_nonneg (by linarith)]
    rcases h with h | h
    · linarith
    · linarith [h.1]
  · push Not at h
    push_cast
    rw [abs_of_nonpos (by linarith)]
    linarith [h.1]

/-- Only an even number is the result for a number halfway between two. -/
theorem even_halfEven_of_half (hx : 0 ≤ x) (h : |x - halfEven x| = 1 / 2) :
    halfEven x % 2 = 0 := by
  have hlow := Nat.floor_le hx
  have hhigh := Nat.lt_floor_add_one x
  unfold halfEven at h ⊢
  split_ifs at h ⊢ with hc
  · rw [abs_of_nonneg (by linarith)] at h
    rcases hc with hc | hc
    · linarith
    · exact hc.2
  · push Not at hc
    push_cast at h
    rw [abs_of_nonpos (by linarith)] at h
    have := hc.2 (by linarith)
    omega

/-- Two different natural numbers are at least one apart. -/
theorem one_le_abs_natCast_sub {m n : ℕ} (h : m ≠ n) : (1 : K) ≤ |(m : K) - n| := by
  rcases Nat.lt_or_gt_of_ne h with h | h
  · have : (m : K) + 1 ≤ n := by exact_mod_cast h
    rw [abs_sub_comm]
    exact le_trans (by linarith) (le_abs_self _)
  · have : (n : K) + 1 ≤ m := by exact_mod_cast h
    exact le_trans (by linarith) (le_abs_self _)

theorem one_sub_abs_le_of_ne (n : ℕ) (h : n ≠ halfEven x) : 1 - |x - halfEven x| ≤ |x - n| := by
  have hone := one_le_abs_natCast_sub (K := K) h
  have htri : |(n : K) - halfEven x| ≤ |x - n| + |x - halfEven x| := by
    rw [abs_sub_comm x n]
    exact abs_sub_le _ _ _
  linarith

/-- No natural number is nearer. -/
theorem abs_sub_halfEven_le (hx : 0 ≤ x) (n : ℕ) : |x - halfEven x| ≤ |x - n| := by
  by_cases h : n = halfEven x
  · rw [h]
  · have := one_sub_abs_le_of_ne n h
    have := abs_sub_halfEven_le_half hx
    linarith

/-- If another natural number is equally near, the result is even. -/
theorem even_halfEven_of_tie (hx : 0 ≤ x) {n : ℕ} (h : n ≠ halfEven x)
    (htie : |x - n| = |x - halfEven x|) : halfEven x % 2 = 0 := by
  have := one_sub_abs_le_of_ne n h
  have := abs_sub_halfEven_le_half hx
  exact even_halfEven_of_half hx (by linarith)

/-- The two properties leave no choice. -/
theorem halfEven_eq (hx : 0 ≤ x) {n : ℕ} (hnear : |x - n| ≤ 1 / 2)
    (heven : |x - n| = 1 / 2 → n % 2 = 0) : halfEven x = n := by
  by_contra hne
  have hle := abs_sub_halfEven_le_half hx
  have hdist := one_sub_abs_le_of_ne n (Ne.symm hne)
  have hn : n % 2 = 0 := heven (by linarith)
  have hm : halfEven x % 2 = 0 := even_halfEven_of_half hx (by linarith)
  -- Two even numbers are two apart, and `x` cannot be within a half of both.
  have htwo : (2 : K) ≤ |(n : K) - halfEven x| := by
    rcases Nat.lt_or_gt_of_ne hne with h | h
    · have : (halfEven x : K) + 2 ≤ n := by exact_mod_cast (by omega : halfEven x + 2 ≤ n)
      exact le_trans (by linarith) (le_abs_self _)
    · have : (n : K) + 2 ≤ halfEven x := by exact_mod_cast (by omega : n + 2 ≤ halfEven x)
      rw [abs_sub_comm]
      exact le_trans (by linarith) (le_abs_self _)
  have htri : |(n : K) - halfEven x| ≤ |x - n| + |x - halfEven x| := by
    rw [abs_sub_comm x n]
    exact abs_sub_le _ _ _
  linarith

/-- The same for a quotient, with all distances multiplied by the divisor. -/
theorem halfEven_div_eq {half : K} (hhalf : 0 < half) (hx : 0 ≤ x) {n : ℕ}
    (hnear : |x - n * (2 * half)| ≤ half) (heven : |x - n * (2 * half)| = half → n % 2 = 0) :
    halfEven (x / (2 * half)) = n := by
  have hpos : 0 < 2 * half := by linarith
  have hdist : |x / (2 * half) - n| = |x - n * (2 * half)| / (2 * half) := by
    rw [← abs_of_pos hpos, ← abs_div, abs_of_pos hpos]
    congr 1
    field_simp
  have hone : half / (2 * half) = 1 / 2 := by field_simp
  refine halfEven_eq (div_nonneg hx hpos.le) ?_ fun h => heven ?_
  · rw [hdist, ← hone]
    exact div_le_div_of_nonneg_right hnear hpos.le
  · rw [hdist, ← hone] at h
    exact (div_left_inj' hpos.ne').1 h

theorem halfEven_natCast (n : ℕ) : halfEven (n : K) = n :=
  halfEven_eq (Nat.cast_nonneg n) (by simp) fun h => by simp at h

theorem halfEven_eq_zero (hx : 0 ≤ x) (h : x ≤ 1 / 2) : halfEven x = 0 :=
  halfEven_eq hx (by rwa [Nat.cast_zero, sub_zero, abs_of_nonneg hx]) fun _ => rfl

theorem halfEven_le (hx : 0 ≤ x) {n : ℕ} (h : x ≤ n) : halfEven x ≤ n := by
  by_contra hlt
  have hsucc : (n : K) + 1 ≤ halfEven x := by exact_mod_cast (by omega : n + 1 ≤ halfEven x)
  have := abs_sub_halfEven_le_half hx
  rw [abs_of_nonpos (by linarith)] at this
  linarith

theorem le_halfEven (hx : 0 ≤ x) {n : ℕ} (h : (n : K) ≤ x) : n ≤ halfEven x := by
  by_contra hlt
  have hsucc : (halfEven x : K) + 1 ≤ n := by exact_mod_cast (by omega : halfEven x + 1 ≤ n)
  have := abs_sub_halfEven_le_half hx
  rw [abs_of_nonneg (by linarith)] at this
  linarith

/-! ## Rounding bits away -/

/-- The number lies in the interval of length one above the mantissa, at its lower end exactly
if the flag is clear. -/
structure EnclosedBy (x : K) (mantissa : ℕ) (sticky : Bool) : Prop where
  le : (mantissa : K) ≤ x
  lt : x < mantissa + 1
  eq_iff : x = mantissa ↔ sticky = false

namespace EnclosedBy

variable {mantissa : ℕ} {sticky : Bool} (h : EnclosedBy x mantissa sticky)

include h

omit [FloorSemiring K] in
theorem nonneg : 0 ≤ x :=
  (Nat.cast_nonneg mantissa).trans h.le

/-! The middle between two multiples of `2 * half`, where the mantissa has the rest `rest`. -/

omit [FloorSemiring K] in
theorem eq_middle_iff {kept rest half : ℕ} (hm : mantissa = kept * (2 * half) + rest) :
    x = kept * (2 * half) + half ↔ rest = half ∧ sticky = false := by
  have hcast : (mantissa : K) = kept * (2 * half) + rest := by exact_mod_cast hm
  constructor
  · intro hx
    have hlow : (rest : K) ≤ half := by linarith [h.le]
    have hhigh : (half : K) < rest + 1 := by linarith [h.lt]
    have hrest : rest = half := by
      refine le_antisymm (by exact_mod_cast hlow) (Nat.lt_succ_iff.1 ?_)
      exact_mod_cast hhigh
    exact ⟨hrest, h.eq_iff.1 (by rw [hx, hcast, hrest])⟩
  · rintro ⟨rfl, hsticky⟩
    rw [h.eq_iff.2 hsticky, hcast]

omit [FloorSemiring K] in
theorem middle_le {kept rest half : ℕ} (hm : mantissa = kept * (2 * half) + rest)
    (hrest : half ≤ rest) : kept * (2 * half) + half ≤ x := by
  have hcast : (mantissa : K) = kept * (2 * half) + rest := by exact_mod_cast hm
  have hle : (half : K) ≤ rest := by exact_mod_cast hrest
  linarith [h.le]

omit [FloorSemiring K] in
theorem le_middle {kept rest half : ℕ} (hm : mantissa = kept * (2 * half) + rest)
    (hrest : rest < half ∨ rest = half ∧ sticky = false) : x ≤ kept * (2 * half) + half := by
  rcases hrest with hlt | hmiddle
  · have hcast : (mantissa : K) = kept * (2 * half) + rest := by exact_mod_cast hm
    have hle : (rest : K) + 1 ≤ half := by exact_mod_cast hlt
    linarith [h.lt]
  · exact ((h.eq_middle_iff hm).2 hmiddle).le

/-- Dropping bits of the mantissa rounds the enclosed number. -/
theorem dropBits_eq_halfEven {drop : ℕ} (hdrop : 0 < drop) :
    Format.dropBits mantissa drop sticky = halfEven (x / 2 ^ drop) := by
  obtain ⟨d, rfl⟩ : ∃ d, drop = d + 1 := ⟨drop - 1, by omega⟩
  obtain ⟨half, hhalf⟩ : ∃ half, half = 2 ^ d := ⟨_, rfl⟩
  obtain ⟨kept, hkept⟩ : ∃ kept, kept = mantissa / 2 ^ (d + 1) := ⟨_, rfl⟩
  obtain ⟨rest, hrest⟩ : ∃ rest, rest = mantissa % 2 ^ (d + 1) := ⟨_, rfl⟩
  have hstep : 2 ^ (d + 1) = 2 * half := by rw [hhalf, Nat.pow_succ']
  have hm : mantissa = kept * (2 * half) + rest := by
    rw [hkept, hrest, ← hstep, Nat.div_add_mod']
  have hlt : rest < 2 * half := by
    rw [hrest, ← hstep]
    exact Nat.mod_lt _ (Nat.two_pow_pos _)
  have hcast : (mantissa : K) = kept * (2 * half) + rest := by exact_mod_cast hm
  have hltK : (rest : K) + 1 ≤ 2 * half := by exact_mod_cast hlt
  have hpos : (0 : K) < half := by exact_mod_cast hhalf ▸ Nat.two_pow_pos d
  have hdiv : (2 : K) ^ (d + 1) = 2 * half := by exact_mod_cast hstep
  rw [hdiv]
  symm
  unfold Format.dropBits
  simp only [← hkept, ← hrest, Nat.add_sub_cancel, ← hhalf]
  split_ifs with hup
  · have hmiddle := h.middle_le hm (by omega)
    refine halfEven_div_eq hpos h.nonneg ?_ fun htie => ?_
    · rw [abs_of_nonpos (by push_cast; linarith [h.lt])]
      push_cast
      linarith
    · rw [abs_of_nonpos (by push_cast; linarith [h.lt])] at htie
      push_cast at htie
      obtain ⟨hlast, hclear⟩ := (h.eq_middle_iff hm).1 (by linarith)
      rcases hup with hmore | ⟨-, hset | hodd⟩
      · omega
      · exact absurd (hclear ▸ hset) Bool.false_ne_true
      · omega
  · have hnot : rest < half ∨ rest = half ∧ sticky = false := by
      rcases Nat.lt_trichotomy rest half with hless | heq | hmore
      · exact Or.inl hless
      · exact Or.inr ⟨heq, by simpa using fun hset => hup (Or.inr ⟨heq, Or.inl hset⟩)⟩
      · exact absurd (Or.inl hmore) hup
    have hmiddle := h.le_middle hm hnot
    have hrest0 : (0 : K) ≤ rest := Nat.cast_nonneg rest
    refine halfEven_div_eq hpos h.nonneg ?_ fun htie => ?_
    · rw [abs_of_nonneg (by linarith [h.le])]
      linarith
    · rw [abs_of_nonneg (by linarith [h.le])] at htie
      obtain ⟨hlast, -⟩ := (h.eq_middle_iff hm).1 (by linarith)
      omega

end EnclosedBy

end Lanewise
