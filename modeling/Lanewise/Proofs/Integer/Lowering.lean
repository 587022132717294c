import Mathlib.Data.Nat.Bitwise
import Lanewise.Proofs.Integer.Exact
import Lanewise.Proofs.Integer.Shift
import Lanewise.Proofs.Vec.Logic

/-!
# Integer operations from logic and wrapping sums

Rounded averages, unsigned saturation, negation, absolute values and the unsigned order can be built
from bitwise logic, wrapping sums and differences, shifts and minima. Each identity is first one of
lanes, of any width :

* twice the union of two numbers is their sum and their difference by exclusive or
  (`two_mul_lor`), so the rounded average lies half of this difference below the union
  (`Lane.avgr_eq`);
* a sum does not overflow if the left operand is first cut to the room that the right one leaves
  (`Lane.addSat_unsigned_eq`), and a difference from a maximum does not borrow
  (`Lane.subSat_unsigned_eq`);
* a lane filled with its sign complements or keeps the lane (`Lane.abs_eq`);
* with the sign bits flipped, the signed order is the unsigned one (`Lane.lt_unsigned_eq`).

`IntShape.lower_to_logic_and_sums` : the identities of vectors, for every shape.
-/

namespace Lanewise

/-! ## Numbers -/

/-- Twice the union counts a common bit as both numbers do, and any other bit once more. -/
theorem two_mul_lor (m n : ℕ) : 2 * (m ||| n) = m + n + (m ^^^ n) := by
  -- On the bits of `m` from the last one on, since logic carries nothing from bit to bit.
  induction m using Nat.binaryRec generalizing n with
  | zero => simp; omega
  | bit c m ih =>
    obtain ⟨d, l, rfl⟩ : ∃ d l, n = Nat.bit d l :=
      ⟨_, _, (Nat.bit_testBit_zero_shiftRight_one n).symm⟩
    have hrest := ih l
    rw [Nat.lor_bit, Nat.xor_bit]
    simp only [Nat.bit_val]
    cases c <;> cases d <;> simp <;> omega

/-- The highest bit is added or taken away. -/
theorem xor_two_pow {m k : ℕ} (h : m < 2 * 2 ^ k) :
    m ^^^ 2 ^ k = if m < 2 ^ k then m + 2 ^ k else m - 2 ^ k := by
  -- The union only adds the bit if it is missing, and the union tells the exclusive or.
  have hunion := two_mul_lor m (2 ^ k)
  rw [Nat.or_comm] at hunion
  split_ifs with hm
  · have hor : 2 ^ k ||| m = 2 ^ k + m := by
      simpa using (Nat.two_pow_add_eq_or_of_lt hm 1).symm
    omega
  · have hlow : m - 2 ^ k < 2 ^ k := by omega
    have hor : 2 ^ k ||| m = m := by
      have hsplit := Nat.two_pow_add_eq_or_of_lt hlow 1
      rw [Nat.mul_one, Nat.add_sub_cancel' (not_lt.1 hm)] at hsplit
      rw [hsplit, ← Nat.or_assoc, Nat.or_self]
    omega

/-! ## One lane -/

namespace Lane

variable {w : ℕ} (x y : BitVec w)

theorem avgr_eq : avgr x y = (x ||| y) - (x ^^^ y) >>> 1 := by
  have hunion := two_mul_lor x.toNat y.toNat
  have hle : (x ^^^ y) >>> 1 ≤ x ||| y := by
    rw [BitVec.le_def, BitVec.toNat_ushiftRight, BitVec.toNat_xor, BitVec.toNat_or,
      Nat.shiftRight_one]
    omega
  refine BitVec.eq_of_toNat_eq ?_
  rw [toNat_avgr, BitVec.toNat_sub_of_le hle, BitVec.toNat_ushiftRight, BitVec.toNat_xor,
    BitVec.toNat_or, Nat.shiftRight_one]
  omega

theorem addSat_unsigned_eq (hw : 0 < w) :
    addSat .unsigned x y = Signedness.unsigned.min x (~~~y) + y := by
  have hsat := value_addSat x y hw .unsigned
  have hmin := Signedness.unsigned.value_min x (~~~y)
  simp only [Signedness.value, Signedness.clamp, Signedness.least, Signedness.greatest,
    BitVec.toNat_not] at hsat hmin
  have hy := y.isLt
  -- The complement of the right operand is the room above it.
  have hfits : (Signedness.unsigned.min x (~~~y)).toNat + y.toNat < 2 ^ w := by omega
  have hpow : ((2 ^ w : ℕ) : ℤ) = 2 ^ w := by norm_cast
  refine BitVec.eq_of_toNat_eq ?_
  rw [BitVec.toNat_add, Nat.mod_eq_of_lt hfits]
  omega

theorem subSat_unsigned_eq (hw : 0 < w) :
    subSat .unsigned x y = Signedness.unsigned.max x y - y := by
  have hsat := value_subSat x y hw .unsigned
  have hmax := Signedness.unsigned.value_max x y
  simp only [Signedness.value, Signedness.clamp, Signedness.least, Signedness.greatest] at hsat hmax
  have hx := x.isLt
  have hle : y ≤ Signedness.unsigned.max x y := by
    rw [BitVec.le_def]
    omega
  have hpow : ((2 ^ w : ℕ) : ℤ) = 2 ^ w := by norm_cast
  refine BitVec.eq_of_toNat_eq ?_
  rw [BitVec.toNat_sub_of_le hle]
  omega

/-- The sign shifted through a lane fills it. -/
theorem sshiftRight_last (hw : 0 < w) : x.sshiftRight (w - 1) = Vec.mask x.msb := by
  refine BitVec.eq_of_getLsbD_eq fun i hi => ?_
  rw [BitVec.getLsbD_sshiftRight, Vec.getLsbD_mask _ hi, BitVec.msb_eq_getLsbD_last]
  -- Only the first bit comes from inside the lane, and it comes from the sign as well.
  by_cases hfirst : i = 0
  · have hlast : w - 1 + 0 < w := by omega
    rw [hfirst, if_pos hlast]
    simp [hw.ne']
  · have hout : ¬w - 1 + i < w := by omega
    simp [hi, hout]

theorem abs_eq : x.abs = (x ^^^ Vec.mask x.msb) - Vec.mask x.msb := by
  rw [BitVec.abs]
  cases h : x.msb with
  | false => simp [Vec.mask]
  | true => simp [Vec.mask, BitVec.neg_eq_not_add, BitVec.sub_eq_add_neg]

/-- With the sign bit flipped, the signed number is the unsigned one moved down. -/
theorem toInt_flip (hw : 0 < w) : (x ^^^ BitVec.intMin w).toInt = x.toNat - 2 ^ (w - 1) := by
  have hpow : 2 ^ w = 2 * 2 ^ (w - 1) := by
    rw [← Nat.pow_succ', Nat.succ_eq_add_one, Nat.sub_add_cancel hw]
  have hx := x.isLt
  rw [hpow] at hx
  rw [BitVec.toInt_eq_toNat_cond, BitVec.toNat_xor, BitVec.toNat_intMin_of_pos hw, xor_two_pow hx]
  have hcast : ((2 ^ (w - 1) : ℕ) : ℤ) = 2 ^ (w - 1) := by norm_cast
  split_ifs <;> omega

theorem lt_unsigned_eq (hw : 0 < w) : Signedness.unsigned.lt x y =
    Signedness.signed.lt (x ^^^ BitVec.intMin w) (y ^^^ BitVec.intMin w) := by
  rw [Bool.eq_iff_iff, Signedness.lt_iff, Signedness.lt_iff]
  simp only [Signedness.value, toInt_flip _ hw]
  omega

end Lane

/-! ## Vectors -/

namespace IntShape

variable (s : IntShape)

theorem one_lt_laneBits : 1 < s.laneBits := by
  cases s <;> decide

/-- Every lane filled with its sign. -/
def signMask (a : Vec) : Vec :=
  s.shift (.right .signed) a (BitVec.ofNat 32 (s.laneBits - 1))

/-- The least signed number in every lane : the sign bits. -/
def signBits : Vec :=
  Vec.splat s (BitVec.intMin s.laneBits)

theorem lane_signMask (a : Vec) (k : ℕ) (h : k < s.lanes) :
    (s.signMask a).lane s k = Vec.mask (a.lane s k).msb := by
  have hpos : 0 < s.laneBits := Shape.laneBits_pos s
  rw [signMask, s.lane_shift _ a _ k h, Shift.lane, Lane.shr,
    Shift.toNat_ofNat_mod s.laneBits_dvd_two_pow (Nat.sub_one_lt_of_lt hpos)]
  exact Lane.sshiftRight_last _ hpos

theorem lane_halve (a : Vec) (k : ℕ) (h : k < s.lanes) :
    (s.shift (.right .unsigned) a 1).lane s k = a.lane s k >>> 1 := by
  have hone : (1#32).toNat % s.laneBits = 1 :=
    Shift.toNat_ofNat_mod s.laneBits_dvd_two_pow s.one_lt_laneBits
  rw [s.lane_shift _ a _ k h, Shift.lane, Lane.shr]
  exact congrArg (a.lane s k >>> ·) hone

/-- Averages, unsigned saturation, negation, absolute values, the sign masks and the unsigned order,
each built from simpler operations of the same shape. -/
theorem lower_to_logic_and_sums (a b : Vec) :
    s.binary .avgr a b = s.binary .sub (a ||| b) (s.shift (.right .unsigned) (a ^^^ b) 1) ∧
    s.binary (.addSat .unsigned) a b = s.binary .add (s.binary (.min .unsigned) a (~~~b)) b ∧
    s.binary (.subSat .unsigned) a b = s.binary .sub (s.binary (.max .unsigned) a b) b ∧
    s.unary .neg a = s.binary .add (~~~a) (Vec.splat s 1#_) ∧
    s.unary .abs a = s.binary .sub (a ^^^ s.signMask a) (s.signMask a) ∧
    s.signMask a = s.binary (.compare (.lt .signed)) a Vec.zero ∧
    s.binary (.compare (.lt .unsigned)) a b =
      s.binary (.compare (.lt .signed)) (a ^^^ s.signBits) (b ^^^ s.signBits) := by
  have hpos : 0 < s.laneBits := Shape.laneBits_pos s
  refine ⟨?_, ?_, ?_, ?_, ?_, ?_, ?_⟩ <;> refine Vec.ext_lane s fun k hk => ?_
  · rw [s.lane_binary _ _ _ k hk, s.lane_binary _ _ _ k hk, s.lane_halve _ k hk, Vec.lane_or,
      Vec.lane_xor]
    exact Lane.avgr_eq _ _
  · rw [s.lane_binary _ _ _ k hk, s.lane_binary _ _ _ k hk, s.lane_binary _ _ _ k hk,
      Vec.lane_not _ _ hk]
    exact Lane.addSat_unsigned_eq _ _ hpos
  · rw [s.lane_binary _ _ _ k hk, s.lane_binary _ _ _ k hk, s.lane_binary _ _ _ k hk]
    exact Lane.subSat_unsigned_eq _ _ hpos
  · rw [s.lane_unary _ _ k hk, s.lane_binary _ _ _ k hk, Vec.lane_not _ _ hk,
      Vec.lane_splat _ _ _ hk]
    exact BitVec.neg_eq_not_add _
  · rw [s.lane_unary _ _ k hk, s.lane_binary _ _ _ k hk, Vec.lane_xor, s.lane_signMask _ k hk]
    exact Lane.abs_eq _
  · rw [s.lane_signMask _ k hk, s.lane_binary _ _ _ k hk, Vec.lane_zero]
    exact congrArg Vec.mask BitVec.slt_zero_eq_msb.symm
  · rw [s.lane_binary _ _ _ k hk, s.lane_binary _ _ _ k hk, Vec.lane_xor, Vec.lane_xor, signBits,
      Vec.lane_splat _ _ _ hk]
    exact congrArg Vec.mask (Lane.lt_unsigned_eq _ _ hpos)

end IntShape

end Lanewise
