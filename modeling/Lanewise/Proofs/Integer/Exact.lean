import Lanewise.Integer.Vector
import Lanewise.Proofs.Integer.Reading
import Lanewise.Instr.Execute

/-!
# Integer vectors refine exact arithmetic

`IntUnary.exactValue` and `IntBinary.exactValue` are the integer operations on numbers : sums,
differences and products modulo a power of two, saturation as a clamp to the range of the
reading, averages rounded up, and all ones for a comparison that holds. Every lane of a result
stands for this number, and the instructions give the same vectors (`IntShape.lanes_exact`).

A wrapped result is the two's complement of the exact one (`toNat_eq_emod`). A saturating result
can only leave its range on one side, the one that the sign of the left operand tells
(`Lane.toInt_saturate`).
-/

namespace Lanewise

variable {w : ℕ}

/-! ## Arithmetic of numbers -/

namespace Signedness

/-- The number of the range that is nearest to a number. -/
def clamp (w : ℕ) (sign : Signedness) (x : ℤ) : ℤ :=
  Max.max (sign.least w) (Min.min (sign.greatest w) x)

theorem clamp_of_le {sign : Signedness} {x : ℤ} (hle : sign.least w ≤ x)
    (hge : x ≤ sign.greatest w) : sign.clamp w x = x := by
  rw [clamp, min_eq_right hge, max_eq_right hle]

theorem least_le_greatest (sign : Signedness) (w : ℕ) : sign.least w ≤ sign.greatest w :=
  (sign.least_le_value 0#w).trans (sign.value_le_greatest 0#w)

theorem clamp_of_lt {sign : Signedness} {x : ℤ} (h : x < sign.least w) :
    sign.clamp w x = sign.least w := by
  rw [clamp, min_eq_right (h.le.trans (sign.least_le_greatest w)), max_eq_left h.le]

theorem clamp_of_gt {sign : Signedness} {x : ℤ} (h : sign.greatest w < x) :
    sign.clamp w x = sign.greatest w := by
  rw [clamp, min_eq_left h.le, max_eq_right (sign.least_le_greatest w)]

end Signedness

namespace IntCompare

/-- The relation of the numbers that two lanes stand for. -/
def Relates : IntCompare → BitVec w → BitVec w → Prop
  | eq, a, b => a.toNat = b.toNat
  | ne, a, b => a.toNat ≠ b.toNat
  | lt sign, a, b => sign.value a < sign.value b
  | gt sign, a, b => sign.value b < sign.value a
  | le sign, a, b => sign.value a ≤ sign.value b
  | ge sign, a, b => sign.value b ≤ sign.value a

instance (relation : IntCompare) (a b : BitVec w) : Decidable (relation.Relates a b) :=
  match relation with
  | eq => inferInstanceAs (Decidable (_ = _))
  | ne => inferInstanceAs (Decidable (_ ≠ _))
  | lt _ | gt _ => inferInstanceAs (Decidable (_ < _))
  | le _ | ge _ => inferInstanceAs (Decidable (_ ≤ _))

theorem holds_iff (relation : IntCompare) (a b : BitVec w) :
    relation.holds a b = true ↔ relation.Relates a b := by
  cases relation with
  | eq => rw [holds, Relates, beq_iff_eq, BitVec.toNat_inj]
  | ne => rw [holds, Relates, bne_iff_ne, Ne, Ne, BitVec.toNat_inj]
  | lt sign => exact sign.lt_iff a b
  | gt sign => exact sign.lt_iff b a
  | le sign => exact sign.le_iff a b
  | ge sign => exact sign.le_iff b a

end IntCompare

/-! ## Operations on numbers -/

namespace IntUnary

/-- The unsigned number of a result, from the numbers of the lane. -/
def exactValue : IntUnary → BitVec w → ℤ
  | abs, a => |a.toInt| % 2 ^ w
  | neg, a => -(a.toNat : ℤ) % 2 ^ w

end IntUnary

namespace IntBinary

/-- How the lanes of a result are read. -/
def reading : IntBinary → Signedness
  | min sign | max sign | addSat sign | subSat sign => sign
  | compare _ | add | sub | mul | avgr => .unsigned

/-- The number of a result, from the numbers of the lanes. -/
def exactValue : IntBinary → BitVec w → BitVec w → ℤ
  | compare relation, a, b => if relation.Relates a b then 2 ^ w - 1 else 0
  | add, a, b => (a.toNat + b.toNat : ℤ) % 2 ^ w
  | sub, a, b => (a.toNat - b.toNat : ℤ) % 2 ^ w
  | mul, a, b => (a.toNat * b.toNat : ℤ) % 2 ^ w
  | min sign, a, b => Min.min (sign.value a) (sign.value b)
  | max sign, a, b => Max.max (sign.value a) (sign.value b)
  | addSat sign, a, b => sign.clamp w (sign.value a + sign.value b)
  | subSat sign, a, b => sign.clamp w (sign.value a - sign.value b)
  | avgr, a, b => (a.toNat + b.toNat + 1 : ℤ) / 2

end IntBinary

/-! ## One lane -/

namespace Lane

variable (a b : BitVec w)

/-- A signed result that stops at the end on the side of the left operand is the clamped number,
if the number can only leave the range on this side. -/
theorem toInt_saturate (hw : 0 < w) {x : BitVec w} {n : ℤ} {overflow : Bool}
    (hover : overflow = true ↔ 2 ^ (w - 1) ≤ n ∨ n < -2 ^ (w - 1))
    (hneg : a.toInt < 0 → n < 2 ^ (w - 1)) (hpos : 0 ≤ a.toInt → -2 ^ (w - 1) ≤ n)
    (hx : ¬overflow = true → x.toInt = n) :
    BitVec.toInt (if overflow then (if a.msb then BitVec.intMin w else BitVec.intMax w) else x) =
      Signedness.signed.clamp w n := by
  by_cases h : overflow = true
  · have hout := hover.1 h
    rw [if_pos h, BitVec.msb_eq_toInt]
    by_cases hsign : a.toInt < 0
    · have hlt := hneg hsign
      rw [decide_eq_true hsign, if_pos rfl, BitVec.toInt_intMin_of_pos hw,
        Signedness.clamp_of_lt (by rw [Signedness.least]; omega)]
      rfl
    · have hle := hpos (not_lt.1 hsign)
      rw [decide_eq_false hsign, if_neg Bool.false_ne_true, BitVec.toInt_intMax,
        Signedness.clamp_of_gt (by rw [Signedness.greatest]; omega)]
      rfl
  · have hin := mt hover.2 h
    rw [if_neg h, hx h, Signedness.clamp_of_le (by rw [Signedness.least]; omega)
      (by rw [Signedness.greatest]; omega)]

theorem value_addSat (hw : 0 < w) (sign : Signedness) :
    sign.value (addSat sign a b) = sign.clamp w (sign.value a + sign.value b) := by
  match sign with
  | .signed =>
    have hb := b.toInt_lt
    have hb' := b.le_toInt
    simp only [addSat, Signedness.value]
    refine toInt_saturate a hw ?_ (by omega) (by omega) BitVec.toInt_add_of_not_saddOverflow
    simp [BitVec.saddOverflow]
  | .unsigned =>
    rw [addSat]
    by_cases h : a.uaddOverflow b = true
    · have hsum : 2 ^ w ≤ a.toNat + b.toNat := by simpa [BitVec.uaddOverflow] using h
      have hsum' : (2 ^ w : ℤ) ≤ a.toNat + b.toNat := by exact_mod_cast hsum
      rw [if_pos h, Signedness.value_allOnes, Signedness.value, Signedness.value,
        Signedness.clamp_of_gt (by rw [Signedness.greatest]; omega)]
    · have hsum : a.toNat + b.toNat < 2 ^ w := by simpa [BitVec.uaddOverflow] using h
      have hsum' : (a.toNat + b.toNat : ℤ) < 2 ^ w := by exact_mod_cast hsum
      simp only [Signedness.value]
      rw [if_neg h, BitVec.toNat_add_of_not_uaddOverflow h, Nat.cast_add,
        Signedness.clamp_of_le (by rw [Signedness.least]; omega)
          (by rw [Signedness.greatest]; omega)]

theorem value_subSat (hw : 0 < w) (sign : Signedness) :
    sign.value (subSat sign a b) = sign.clamp w (sign.value a - sign.value b) := by
  match sign with
  | .signed =>
    have hb := b.toInt_lt
    have hb' := b.le_toInt
    simp only [subSat, Signedness.value]
    refine toInt_saturate a hw ?_ (by omega) (by omega) BitVec.toInt_sub_of_not_ssubOverflow
    simp [BitVec.ssubOverflow]
  | .unsigned =>
    have hlt := a.isLt
    simp only [subSat, Signedness.value]
    by_cases h : a.usubOverflow b = true
    · have hless : a.toNat < b.toNat := by simpa [BitVec.usubOverflow] using h
      rw [if_pos h, Signedness.clamp_of_lt (by rw [Signedness.least]; omega), Signedness.least]
      simp
    · have hle : b.toNat ≤ a.toNat := by simpa [BitVec.usubOverflow] using h
      have hless : (a.toNat : ℤ) < 2 ^ w := by exact_mod_cast hlt
      rw [if_neg h, BitVec.toNat_sub_of_not_usubOverflow h, Nat.cast_sub hle,
        Signedness.clamp_of_le (by rw [Signedness.least]; omega)
          (by rw [Signedness.greatest]; omega)]

theorem toNat_avgr : (avgr a b).toNat = (a.toNat + b.toNat + 1) / 2 := by
  have ha := a.isLt
  have hb := b.isLt
  have hpos := Nat.two_pow_pos w
  have hsucc : 2 ^ (w + 1) = 2 * 2 ^ w := Nat.pow_succ'
  have hsum : (a.setWidth (w + 1) + b.setWidth (w + 1) + 1#(w + 1)).toNat =
      a.toNat + b.toNat + 1 := by
    simp only [BitVec.toNat_add, BitVec.toNat_setWidth, BitVec.toNat_ofNat, Nat.add_mod_mod,
      Nat.mod_add_mod]
    exact Nat.mod_eq_of_lt (by omega)
  rw [avgr, BitVec.toNat_setWidth, BitVec.toNat_ushiftRight, hsum, Nat.shiftRight_one,
    Nat.mod_eq_of_lt (by omega)]

end Lane

/-- The number that two's complement takes from a number. -/
theorem toNat_eq_emod {x : BitVec w} {n : ℤ} (h : x = BitVec.ofInt w n) :
    (x.toNat : ℤ) = n % 2 ^ w := by
  have hne : ((2 ^ w : ℕ) : ℤ) ≠ 0 := by exact_mod_cast (Nat.two_pow_pos w).ne'
  rw [h, BitVec.toNat_ofInt, Int.toNat_of_nonneg (Int.emod_nonneg _ hne)]
  push_cast
  rfl

namespace IntUnary

theorem value_lane (op : IntUnary) (a : BitVec w) :
    Signedness.unsigned.value (op.lane a) = op.exactValue a := by
  cases op with
  | neg =>
    refine toNat_eq_emod ?_
    rw [BitVec.ofInt_neg, BitVec.ofInt_natCast, BitVec.ofNat_toNat, BitVec.setWidth_eq]
    rfl
  | abs =>
    refine toNat_eq_emod ?_
    rw [lane, BitVec.abs, BitVec.msb_eq_toInt]
    by_cases hneg : a.toInt < 0
    · rw [decide_eq_true hneg, if_pos rfl, abs_of_neg hneg, BitVec.ofInt_neg, BitVec.ofInt_toInt]
      rfl
    · rw [decide_eq_false hneg, if_neg Bool.false_ne_true, abs_of_nonneg (not_lt.1 hneg),
        BitVec.ofInt_toInt]

end IntUnary

namespace IntBinary

theorem value_lane (hw : 0 < w) (op : IntBinary) (a b : BitVec w) :
    op.reading.value (op.lane a b) = op.exactValue a b := by
  cases op with
  | compare relation =>
    have hiff := relation.holds_iff a b
    rw [lane, exactValue, Vec.mask]
    by_cases h : relation.Relates a b
    · rw [if_pos (hiff.2 h), if_pos h]
      exact Signedness.value_allOnes w
    · rw [if_neg (mt hiff.1 h), if_neg h]
      simp [reading, Signedness.value]
  | add =>
    refine toNat_eq_emod ?_
    rw [BitVec.ofInt_add, BitVec.ofInt_natCast, BitVec.ofInt_natCast]
    simp [lane]
  | sub =>
    refine toNat_eq_emod ?_
    rw [Int.sub_eq_add_neg, BitVec.ofInt_add, BitVec.ofInt_neg, BitVec.ofInt_natCast,
      BitVec.ofInt_natCast]
    simp [lane, BitVec.sub_eq_add_neg]
  | mul =>
    refine toNat_eq_emod ?_
    rw [BitVec.ofInt_mul, BitVec.ofInt_natCast, BitVec.ofInt_natCast]
    simp [lane]
  | min sign => exact sign.value_min a b
  | max sign => exact sign.value_max a b
  | addSat sign => exact Lane.value_addSat a b hw sign
  | subSat sign => exact Lane.value_subSat a b hw sign
  | avgr =>
    simp only [reading, Signedness.value, lane, exactValue, Lane.toNat_avgr]
    push_cast
    rfl

end IntBinary

/-! ## Vectors -/

namespace IntShape

/-- Every lane of a result stands for the exact result, reduced, clamped or turned into a mask as
the operation says, and an instruction gives the vector of these lanes. -/
theorem lanes_exact (s : IntShape) (a b : Vec) :
    (∀ (op : IntUnary) (k : ℕ), k < s.lanes →
      Signedness.unsigned.value ((s.unary op a).lane s k) = op.exactValue (a.lane s k)) ∧
    (∀ (op : IntBinary) (k : ℕ), k < s.lanes →
      op.reading.value ((s.binary op a b).lane s k) = op.exactValue (a.lane s k) (b.lane s k)) ∧
    (∀ op : IntUnary, (Instr.intUnary s op).execute [.v128 a] = .ok (.v128 (s.unary op a))) ∧
    (∀ (op : IntBinary) (encoded : op.isEncoded s),
      (Instr.intBinary s op encoded).execute [.v128 a, .v128 b] =
        .ok (.v128 (s.binary op a b))) := by
  refine ⟨fun op k hk => ?_, fun op k hk => ?_, fun op => rfl, fun op encoded => rfl⟩
  · rw [lane_unary s op a k hk, op.value_lane]
  · rw [lane_binary s op a b k hk, op.value_lane (Shape.laneBits_pos s)]

/-- The sum of the two lowest byte values stops at the lowest one, in the last lane too. -/
theorem lanes_exact_addSat :
    15 < lanes .i8x16 ∧
      Signedness.signed.value ((i8x16.binary (.addSat .signed) (Vec.filled (-128))
        (Vec.filled (-128))).lane i8x16 15) = -128 := by
  refine ⟨by decide, ?_⟩
  have h := (lanes_exact i8x16 (Vec.filled (-128)) (Vec.filled (-128))).2.1 (.addSat .signed) 15
    (by decide)
  rw [IntBinary.reading, Vec.lane_filled _ _ (by decide)] at h
  exact h

end IntShape

end Lanewise
