import Lanewise.Proofs.Float.Minimum

/-!
# Signs and duality

Absolute values and negation are logic on the sign bit, which is the least signed number of an
integer lane of the same width (`Format.signBit_eq_intMin`). Negation keeps the magnitude bits, so
it turns the order of patterns around : keys change their sign (`Format.key_neg`), and ranks are
reflected between those of the two zeros (`Format.rank_neg`). It does not touch the quiet bit.

Hence a choice by places is the negated choice of the negated operands by the opposite places
(`Format.Chooses.eq_neg`). `FloatShape.sign_logic_and_duality` : minimum and maximum are dual under
negation on every bit pattern, and so are pseudo-minimum and pseudo-maximum.
-/

namespace Lanewise

namespace Format

variable {fmt : Format} {x y : fmt.Pattern}

/-! ## The sign bit -/

theorem toNat_signBit (fmt : Format) :
    fmt.signBit.toNat = 2 ^ (fmt.exponentBits + fmt.mantissaBits) := by
  have hwidth := fmt.two_pow_width
  have hpos := Nat.two_pow_pos (fmt.exponentBits + fmt.mantissaBits)
  rw [signBit, BitVec.toNat_ofNat, Nat.mod_eq_of_lt (by omega)]

theorem width_pos (fmt : Format) : 0 < fmt.width := by
  rw [width]
  omega

theorem signBit_eq_intMin (fmt : Format) : fmt.signBit = BitVec.intMin fmt.width := by
  have hexp : fmt.width - 1 = fmt.exponentBits + fmt.mantissaBits := by
    rw [width]
    omega
  refine BitVec.eq_of_toNat_eq ?_
  rw [toNat_signBit, BitVec.toNat_intMin_of_pos fmt.width_pos, hexp]

theorem neg_eq_xor (x : fmt.Pattern) : neg x = x ^^^ BitVec.intMin fmt.width := by
  rw [neg, signBit_eq_intMin]

theorem abs_eq_and (x : fmt.Pattern) : abs x = x &&& BitVec.intMax fmt.width := by
  have hnot : ~~~BitVec.intMin fmt.width = BitVec.intMax fmt.width := by
    refine BitVec.eq_of_getLsbD_eq fun i hi => ?_
    rw [BitVec.getLsbD_not, BitVec.getLsbD_intMin, BitVec.getLsbD_intMax, decide_eq_true hi,
      Bool.true_and, ← decide_not, decide_eq_decide]
    omega
  rw [abs, signBit_eq_intMin, hnot]

/-! ## Negation -/

protected theorem neg_neg (x : fmt.Pattern) : neg (neg x) = x := by
  rw [neg, neg, BitVec.xor_assoc, BitVec.xor_self, BitVec.xor_zero]

theorem isNegative_neg (x : fmt.Pattern) : isNegative (neg x) = !isNegative x := by
  rw [isNegative, neg_eq_xor, BitVec.msb_xor, BitVec.msb_intMin, decide_eq_true fmt.width_pos,
    Bool.xor_true, isNegative]

theorem magnitude_neg (x : fmt.Pattern) : magnitude (neg x) = magnitude x := by
  rw [magnitude, neg, BitVec.toNat_xor, toNat_signBit, Nat.xor_mod_two_pow, Nat.mod_self,
    Nat.xor_zero, magnitude]

theorem isNaN_neg (x : fmt.Pattern) : isNaN (neg x) = isNaN x := by
  rw [Bool.eq_iff_iff, isNaN_iff, isNaN_iff, magnitude_neg]

theorem key_neg (x : fmt.Pattern) : key (neg x) = -key x := by
  rw [key, key, isNegative_neg, magnitude_neg]
  cases isNegative x <;> simp [Datum.signed]

/-- The ranks of the zeros, `-1` and `0`, change places. -/
theorem rank_neg (x : fmt.Pattern) : rank (neg x) = -1 - rank x := by
  rw [rank, rank, isNegative_neg, magnitude_neg]
  cases isNegative x <;> simp <;> omega

/-- The quiet bit is not the sign bit. -/
theorem quiet_neg (x : fmt.Pattern) : quiet (neg x) = neg (quiet x) := by
  have hpos := fmt.mantissa_pos
  refine BitVec.eq_of_getLsbD_eq fun i hi => ?_
  rw [getLsbD_quiet, neg_eq_xor, neg_eq_xor, BitVec.getLsbD_xor, BitVec.getLsbD_xor, getLsbD_quiet,
    BitVec.getLsbD_intMin]
  by_cases h : i = fmt.mantissaBits - 1
  · have hsign : ¬i + 1 = fmt.width := by
      rw [width]
      omega
    rw [decide_eq_false hsign, Bool.xor_false, Bool.xor_false]
  · rw [decide_eq_false h, Bool.or_false, Bool.or_false]

/-! ## Duality -/

/-- An operation that prefers the same operands after negation is the dual one. -/
theorem Chooses.eq_neg {op dual : fmt.Pattern → fmt.Pattern → fmt.Pattern}
    {place place' : fmt.Pattern → ℤ} (h : Chooses op place) (hdual : Chooses dual place')
    (hplace : ∀ x y, place' (neg x) ≤ place' (neg y) ↔ place x ≤ place y) (x y : fmt.Pattern) :
    op x y = neg (dual (neg x) (neg y)) := by
  have hx := isNaN_neg x
  have hy := isNaN_neg y
  cases hxnan : isNaN x with
  | true =>
    rw [hxnan] at hx
    rw [h.of_isNaN_left hxnan, hdual.of_isNaN_left hx, quiet_neg, Format.neg_neg]
  | false =>
    rw [hxnan] at hx
    cases hynan : isNaN y with
    | true =>
      rw [hynan] at hy
      rw [h.of_isNaN_right hxnan hynan, hdual.of_isNaN_right hx hy, quiet_neg, Format.neg_neg]
    | false =>
      rw [hynan] at hy
      rw [h.number x y hxnan hynan, hdual.number _ _ hx hy]
      simp only [hplace]
      rw [apply_ite neg, Format.neg_neg, Format.neg_neg]

theorem min_eq_neg_max (x y : fmt.Pattern) : min x y = neg (max (neg x) (neg y)) :=
  chooses_min.eq_neg chooses_max (fun x y => by rw [rank_neg, rank_neg]; omega) x y

theorem max_eq_neg_min (x y : fmt.Pattern) : max x y = neg (min (neg x) (neg y)) :=
  chooses_max.eq_neg chooses_min (fun x y => by rw [rank_neg, rank_neg]; omega) x y

/-- Less is greater after negation, and still fails on NaNs. -/
theorem lt_neg_neg (x y : fmt.Pattern) : lt (neg x) (neg y) = lt y x := by
  rw [Bool.eq_iff_iff, FloatCompare.lt_iff, FloatCompare.lt_iff, isNaN_neg, isNaN_neg, key_neg,
    key_neg, neg_lt_neg_iff]
  exact and_left_comm

theorem pmin_eq_neg_pmax (x y : fmt.Pattern) : pmin x y = neg (pmax (neg x) (neg y)) := by
  rw [pmax, lt_neg_neg, apply_ite neg, Format.neg_neg, Format.neg_neg, pmin]

theorem pmax_eq_neg_pmin (x y : fmt.Pattern) : pmax x y = neg (pmin (neg x) (neg y)) := by
  rw [pmin, lt_neg_neg, apply_ite neg, Format.neg_neg, Format.neg_neg, pmax]

end Format

/-! ## Vectors -/

namespace FloatShape

/-- The integer shape with lanes of the same width. -/
@[reducible] def intShape : FloatShape → IntShape
  | f32x4 => .i32x4
  | f64x2 => .i64x2

variable (s : FloatShape) {k : ℕ}

/-- An integer in every lane, seen as the bits of floats. -/
theorem lane_splat_intShape (x : (w : ℕ) → BitVec w) (h : k < s.lanes) :
    (Vec.splat s.intShape (x _)).lane s k = x s.format.width := by
  cases s with
  | f32x4 => exact Vec.lane_splat IntShape.i32x4 (x 32) k h
  | f64x2 => exact Vec.lane_splat IntShape.i64x2 (x 64) k h

/-- An operation that is the negated dual operation of the negated lanes. -/
theorem binary_eq_neg {op dual : FloatBinary}
    (h : ∀ x y : s.format.Pattern,
      op.lane x y = Format.neg (dual.lane (Format.neg x) (Format.neg y))) (a b : Vec) :
    s.binary op a b = s.unary .neg (s.binary dual (s.unary .neg a) (s.unary .neg b)) := by
  refine Vec.ext_lane s fun k hk => ?_
  rw [s.lane_binary op a b k hk, s.lane_unary .neg _ k hk, s.lane_binary dual _ _ k hk,
    s.lane_unary .neg a k hk, s.lane_unary .neg b k hk, h]
  rfl

/-- Absolute values clear the sign bits and negation flips them, as logic with the greatest and the
least integer of each lane. On all bit patterns a minimum is the negated maximum of the negated
operands, a maximum the negated minimum, and so for the pseudo-minimum and the pseudo-maximum. -/
theorem sign_logic_and_duality (a b : Vec) :
    s.unary .abs a = a.and (Vec.splat s.intShape (BitVec.intMax _)) ∧
    s.unary .neg a = a.xor (Vec.splat s.intShape (BitVec.intMin _)) ∧
    s.binary .min a b = s.unary .neg (s.binary .max (s.unary .neg a) (s.unary .neg b)) ∧
    s.binary .max a b = s.unary .neg (s.binary .min (s.unary .neg a) (s.unary .neg b)) ∧
    s.binary .pmin a b = s.unary .neg (s.binary .pmax (s.unary .neg a) (s.unary .neg b)) ∧
    s.binary .pmax a b = s.unary .neg (s.binary .pmin (s.unary .neg a) (s.unary .neg b)) := by
  refine ⟨Vec.ext_lane s fun k hk => ?_, Vec.ext_lane s fun k hk => ?_, ?_, ?_, ?_, ?_⟩
  · have hand := Vec.lane_and a (Vec.splat s.intShape (BitVec.intMax _)) s k
    rw [lane_splat_intShape s BitVec.intMax hk] at hand
    rw [s.lane_unary .abs a k hk]
    exact (Format.abs_eq_and _).trans hand.symm
  · have hxor := Vec.lane_xor a (Vec.splat s.intShape (BitVec.intMin _)) s k
    rw [lane_splat_intShape s BitVec.intMin hk] at hxor
    rw [s.lane_unary .neg a k hk]
    exact (Format.neg_eq_xor _).trans hxor.symm
  · exact s.binary_eq_neg Format.min_eq_neg_max a b
  · exact s.binary_eq_neg Format.max_eq_neg_min a b
  · exact s.binary_eq_neg Format.pmin_eq_neg_pmax a b
  · exact s.binary_eq_neg Format.pmax_eq_neg_pmin a b

end FloatShape

end Lanewise
