import Mathlib.Data.Int.Basic
import Mathlib.Tactic.Ring
import Lanewise.Power
import Lanewise.Integer.Lane

/-!
# The two readings of a lane

The numbers that the bits of a lane can stand for run from `Signedness.least` to
`Signedness.greatest`. More bits, a comparison, a minimum and a maximum are those of the
numbers (`toInt_extend`, `lt_iff`, `le_iff`, `value_min`, `value_max`).
-/

namespace Lanewise

namespace Signedness

variable {w : ℕ} (sign : Signedness)

/-! ## The range -/

/-- The least number that a lane of width `w` stands for. -/
def least (w : ℕ) : Signedness → ℤ
  | signed => -2 ^ (w - 1)
  | unsigned => 0

/-- The greatest number that a lane of width `w` stands for. -/
def greatest (w : ℕ) : Signedness → ℤ
  | signed => 2 ^ (w - 1) - 1
  | unsigned => 2 ^ w - 1

theorem least_le_value (x : BitVec w) : sign.least w ≤ sign.value x := by
  match sign with
  | signed => exact x.le_toInt
  | unsigned => exact Int.natCast_nonneg _

theorem value_le_greatest (x : BitVec w) : sign.value x ≤ sign.greatest w := by
  match sign with
  | signed => exact Int.le_sub_one_of_lt x.toInt_lt
  | unsigned =>
    have hlt : (x.toNat : ℤ) < 2 ^ w := by exact_mod_cast x.isLt
    exact Int.le_sub_one_of_lt hlt

theorem value_allOnes (w : ℕ) : unsigned.value (BitVec.allOnes w) = unsigned.greatest w := by
  rw [value, greatest, BitVec.toNat_allOnes, Nat.cast_sub (Nat.two_pow_pos w)]
  push_cast
  rfl

/-- More bits do not change the number, also when they are read as signed. -/
theorem toInt_extend {n : ℕ} (h : w < n) (x : BitVec w) :
    (sign.extend n x).toInt = sign.value x := by
  match sign with
  | signed => exact BitVec.toInt_signExtend_of_le h.le
  | unsigned =>
    have hpow : 2 * 2 ^ w ≤ 2 ^ n := by
      rw [← Nat.pow_succ']
      exact Nat.pow_le_pow_right Nat.two_pos h
    have hlt := x.isLt
    have htoNat : (x.setWidth n).toNat = x.toNat := by
      rw [BitVec.toNat_setWidth, Nat.mod_eq_of_lt (by omega)]
    rw [extend, BitVec.toInt_eq_toNat_of_lt (by omega), htoNat, value]

theorem extend_inRange {n : ℕ} (h : w < n) (x : BitVec w) :
    sign.least w ≤ (sign.extend n x).toInt ∧ (sign.extend n x).toInt ≤ sign.greatest w := by
  rw [sign.toInt_extend h]
  exact ⟨sign.least_le_value x, sign.value_le_greatest x⟩

/-! ## Order -/

theorem lt_iff (a b : BitVec w) : sign.lt a b = true ↔ sign.value a < sign.value b := by
  match sign with
  | signed => exact BitVec.slt_iff_toInt_lt
  | unsigned => rw [lt, BitVec.ult_iff_toNat_lt, value, value, Int.ofNat_lt]

theorem le_iff (a b : BitVec w) : sign.le a b = true ↔ sign.value a ≤ sign.value b := by
  match sign with
  | signed => exact BitVec.sle_iff_toInt_le
  | unsigned => rw [le, BitVec.ule_iff_toNat_le, value, value, Int.ofNat_le]

theorem value_min (a b : BitVec w) :
    sign.value (sign.min a b) = Min.min (sign.value a) (sign.value b) := by
  have hlt := sign.lt_iff a b
  rw [Signedness.min]
  split_ifs with h
  · exact (min_eq_left (hlt.1 h).le).symm
  · exact (min_eq_right (not_lt.1 (mt hlt.2 h))).symm

theorem value_max (a b : BitVec w) :
    sign.value (sign.max a b) = Max.max (sign.value a) (sign.value b) := by
  have hlt := sign.lt_iff b a
  rw [Signedness.max]
  split_ifs with h
  · exact (max_eq_left (hlt.1 h).le).symm
  · exact (max_eq_right (not_lt.1 (mt hlt.2 h))).symm

end Signedness

end Lanewise
