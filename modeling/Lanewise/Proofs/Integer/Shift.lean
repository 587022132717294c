import Mathlib.Data.Int.ModEq
import Lanewise.Proofs.Integer.Reading
import Lanewise.Integer.Vector
import Lanewise.Instr.Execute

/-!
# Shifts in a row

A shift reduces its count modulo the lane width, and several shifts of one kind move the bits by the
sum of the reduced counts, which may well be greater than the width. `Shift.exactValue` is the shift
of a number : a left shift multiplies and drops the bits that leave the lane, a right shift divides
and rounds down. It takes the sum of two counts to the one after the other (`exactValue_add`), so a
run of shifts is told by an induction on the counts (`value_foldl_lane`).

`IntShape.shifts_add_up` says so of every lane of a vector, and of shift instructions, whose count
is a signed operand. The lane width divides `2 ^ 32`, so the signed count has the same remainder
(`toInt_emod`).
-/

namespace Lanewise

variable {w : ℕ}

namespace Shift

/-! ## One shift -/

/-- How the lanes of a shift are read. -/
def reading : Shift → Signedness
  | left => .unsigned
  | right sign => sign

/-- A number of `w` bits, moved by `n` places. -/
def exactValue (w : ℕ) : Shift → ℤ → ℕ → ℤ
  | left, x, n => x * 2 ^ n % 2 ^ w
  | right _, x, n => x / 2 ^ n

theorem value_lane (op : Shift) (x : BitVec w) (count : BitVec 32) :
    op.reading.value (op.lane x count) =
      op.exactValue w (op.reading.value x) (count.toNat % w) := by
  match op with
  | left =>
    simp only [reading, Signedness.value, lane, Lane.shl, exactValue]
    rw [BitVec.toNat_shiftLeft, Nat.shiftLeft_eq]
    push_cast
    rfl
  | right .signed =>
    simp only [reading, Signedness.value, lane, Lane.shr, exactValue]
    rw [BitVec.toInt_sshiftRight, Int.shiftRight_eq_div_pow]
    push_cast
    rfl
  | right .unsigned =>
    simp only [reading, Signedness.value, lane, Lane.shr, exactValue]
    rw [BitVec.toNat_ushiftRight, Nat.shiftRight_eq_div_pow]
    push_cast
    rfl

/-! ## Several shifts -/

/-- No places move nothing. -/
theorem exactValue_zero (op : Shift) (x : BitVec w) :
    op.exactValue w (op.reading.value x) 0 = op.reading.value x := by
  match op with
  | left =>
    have hlt : (x.toNat : ℤ) < 2 ^ w := by exact_mod_cast x.isLt
    simp only [exactValue, reading, Signedness.value, pow_zero, mul_one]
    exact Int.emod_eq_of_lt (Int.natCast_nonneg _) hlt
  | right sign => simp [exactValue]

theorem exactValue_add (op : Shift) (x : ℤ) (m n : ℕ) :
    op.exactValue w x (m + n) = op.exactValue w (op.exactValue w x m) n := by
  match op with
  | left =>
    -- The bits that the first shift drops would leave the lane with the second one.
    have hdropped := (Int.mod_modEq (x * 2 ^ m) (2 ^ w)).mul_right (2 ^ n)
    simp only [exactValue]
    rw [pow_add, ← mul_assoc]
    exact hdropped.symm
  | right sign =>
    simp only [exactValue]
    rw [pow_add, Int.ediv_ediv_of_nonneg (Int.pow_nonneg (by decide))]

/-- The sum of the counts, each reduced modulo the lane width. -/
def total (w : ℕ) (counts : List (BitVec 32)) : ℕ :=
  (counts.map (·.toNat % w)).sum

theorem total_cons (count : BitVec 32) (counts : List (BitVec 32)) :
    total w (count :: counts) = count.toNat % w + total w counts := by
  simp [total]

/-- A run of shifts is one shift by the sum of the counts, even past the width. -/
theorem value_foldl_lane (op : Shift) (counts : List (BitVec 32)) (x : BitVec w) :
    op.reading.value (counts.foldl op.lane x) =
      op.exactValue w (op.reading.value x) (total w counts) := by
  induction counts generalizing x with
  | nil => exact (op.exactValue_zero x).symm
  | cons count counts ih =>
    rw [List.foldl_cons, ih, op.value_lane, total_cons, op.exactValue_add]

/-- Past the width only the sign of a number is left. -/
theorem toInt_ediv_two_pow (x : BitVec w) {n : ℕ} (h : w ≤ n) :
    x.toInt / 2 ^ n = if x.toInt < 0 then -1 else 0 := by
  have hpow : (2 ^ (w - 1) : ℤ) ≤ 2 ^ n := by
    exact_mod_cast Nat.pow_le_pow_right Nat.two_pos ((Nat.sub_le w 1).trans h)
  have hlt := x.toInt_lt
  have hle := x.le_toInt
  split_ifs with hneg
  · exact Int.ediv_eq_neg_one_of_neg_of_le hneg (by omega)
  · exact Int.ediv_eq_zero_of_lt (not_lt.1 hneg) (by omega)

/-! ## Counts -/

/-- A count below the lane width is not reduced. -/
theorem toNat_ofNat_mod {n : ℕ} (h : w ∣ 2 ^ 32) (hn : n < w) :
    (BitVec.ofNat 32 n).toNat % w = n := by
  rw [BitVec.toNat_ofNat, Nat.mod_mod_of_dvd _ h, Nat.mod_eq_of_lt hn]

/-- A count that is read as signed has the same remainder. -/
theorem toInt_emod (h : w ∣ 2 ^ 32) (count : BitVec 32) :
    count.toInt % w = (count.toNat % w : ℕ) := by
  have hdvd : (w : ℤ) ∣ (2 ^ 32 : ℕ) := Int.natCast_dvd_natCast.2 h
  rw [BitVec.toInt_eq_toNat_bmod, ← Int.emod_emod_of_dvd _ hdvd, Int.bmod_emod,
    Int.emod_emod_of_dvd _ hdvd]
  push_cast
  rfl

theorem sum_toInt_emod (h : w ∣ 2 ^ 32) (counts : List (BitVec 32)) :
    (counts.map fun count : BitVec 32 => count.toInt % (w : ℤ)).sum = total w counts := by
  induction counts with
  | nil => rfl
  | cons count counts ih =>
    rw [List.map_cons, List.sum_cons, ih, toInt_emod h, total_cons]
    push_cast
    rfl

end Shift

/-! ## Vectors -/

namespace IntShape

theorem laneBits_dvd_two_pow (s : IntShape) : s.laneBits ∣ 2 ^ 32 := by
  cases s <;> decide

theorem lane_foldl_shift (s : IntShape) (op : Shift) (counts : List (BitVec 32)) (v : Vec) (k : ℕ)
    (h : k < s.lanes) :
    (counts.foldl (s.shift op) v).lane s k = counts.foldl op.lane (v.lane s k) := by
  induction counts generalizing v with
  | nil => rfl
  | cons count counts ih => rw [List.foldl_cons, ih, s.lane_shift op v count k h, List.foldl_cons]

theorem foldlM_execute_shift (s : IntShape) (op : Shift) (counts : List (BitVec 32)) (v : Vec) :
    counts.foldlM (fun x count => (Instr.shift s op).execute [x, .i32 count]) (.v128 v) =
      .ok (.v128 (counts.foldl (s.shift op) v)) := by
  induction counts generalizing v with
  | nil => rfl
  | cons count counts ih => exact ih (s.shift op v count)

/-- Shifts of one kind are one shift by the sum of the reduced counts, which leaves only the sign in
a signed right shift once it reaches the width. The instructions do the same, with counts that are
read as signed numbers. -/
theorem shifts_add_up (s : IntShape) (op : Shift) (counts : List (BitVec 32)) (v : Vec) :
    (∀ k < s.lanes, op.reading.value ((counts.foldl (s.shift op) v).lane s k) =
      op.exactValue s.laneBits (op.reading.value (v.lane s k)) (Shift.total s.laneBits counts)) ∧
    (s.laneBits ≤ Shift.total s.laneBits counts → ∀ k < s.lanes,
      ((counts.foldl (s.shift (.right .signed)) v).lane s k).toInt =
        if (v.lane s k).toInt < 0 then -1 else 0) ∧
    counts.foldlM (fun x count => (Instr.shift s op).execute [x, .i32 count]) (.v128 v) =
      .ok (.v128 (counts.foldl (s.shift op) v)) ∧
    (counts.map fun count : BitVec 32 => count.toInt % (s.laneBits : ℤ)).sum =
      Shift.total s.laneBits counts := by
  have hlane (op : Shift) (k : ℕ) (hk : k < s.lanes) :
      op.reading.value ((counts.foldl (s.shift op) v).lane s k) = op.exactValue s.laneBits
        (op.reading.value (v.lane s k)) (Shift.total s.laneBits counts) := by
    rw [s.lane_foldl_shift op counts v k hk, op.value_foldl_lane]
  refine ⟨hlane op, fun htotal k hk => ?_, s.foldlM_execute_shift op counts v, ?_⟩
  · exact (hlane (.right .signed) k hk).trans (Shift.toInt_ediv_two_pow _ htotal)
  · exact Shift.sum_toInt_emod s.laneBits_dvd_two_pow counts

/-- A shift of bytes by nine and one by minus one move by one and by seven, so that a negative byte
has only its sign left. -/
theorem shifts_add_up_signs :
    laneBits .i8x16 ≤ Shift.total (laneBits .i8x16) [9, -1] ∧ 15 < lanes .i8x16 ∧
      (([9, -1].foldl (i8x16.shift (.right .signed)) (Vec.filled 0x90)).lane i8x16 15).toInt =
        -1 := by
  have htotal : laneBits .i8x16 ≤ Shift.total (laneBits .i8x16) [9, -1] := by decide
  have hlast : 15 < lanes .i8x16 := by decide
  have h := (shifts_add_up i8x16 (.right .signed) [9, -1] (Vec.filled 0x90)).2.1 htotal 15 hlast
  rw [Vec.lane_filled _ _ hlast] at h
  exact ⟨htotal, hlast, h⟩

end IntShape

end Lanewise
