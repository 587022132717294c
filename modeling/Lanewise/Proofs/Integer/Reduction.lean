import Lanewise.Proofs.Integer.Exact
import Lanewise.Proofs.Integer.Wider
import Lanewise.Proofs.Vec.Bytes
import Lanewise.Proofs.Vec.Logic

/-!
# Reductions

A vector is reduced to a truth value, whether some lane or every lane is nonzero, or to a number of
the sign bits of its lanes. Each reduction says something about the lanes one by one
(`IntShape.anyTrue_iff`, `IntShape.allTrue_iff`, `IntShape.testBit_bitmask`), and a lane of a
comparison is nonzero and negative exactly if the relation holds.

`IntShape.reductions_agree` ties them together : some lane is nonzero exactly if some bit is set,
two vectors are equal exactly if their lanes are, and a wide lane is nonzero if the narrow lanes in
it are, with the sign of the last one of them.
-/

namespace Lanewise

namespace IntShape

variable {s t : IntShape} {a b v : Vec} {i j k : ℕ}

/-! ## Lane by lane -/

theorem anyTrue_iff : s.anyTrue v = true ↔ ∃ k < s.lanes, v.lane s k ≠ 0#_ := by
  rw [anyTrue, Vec.toList_lanes, List.any_map, List.any_eq_true]
  simp

theorem allTrue_iff : s.allTrue v = true ↔ ∀ k < s.lanes, v.lane s k ≠ 0#_ := by
  rw [allTrue, Vec.toList_lanes, List.all_map, List.all_eq_true]
  simp

theorem testBit_bitmask_iff :
    (s.bitmask v).testBit i = true ↔ i < s.lanes ∧ (v.lane s i).toInt < 0 := by
  rw [testBit_bitmask, Bool.and_eq_true, decide_eq_true_iff, BitVec.msb_eq_toInt,
    decide_eq_true_iff]

/-! ## Comparisons -/

theorem lane_compare (relation : IntCompare) (h : k < s.lanes) :
    (s.binary (.compare relation) a b).lane s k =
      Vec.mask (relation.holds (a.lane s k) (b.lane s k)) :=
  s.lane_binary _ a b k h

theorem lane_compare_ne_zero_iff (relation : IntCompare) (h : k < s.lanes) :
    (s.binary (.compare relation) a b).lane s k ≠ 0#_ ↔
      relation.Relates (a.lane s k) (b.lane s k) := by
  rw [lane_compare relation h, Vec.mask_ne_zero_iff (Shape.laneBits_pos s), relation.holds_iff]

theorem allTrue_eq_iff : s.allTrue (s.binary (.compare .eq) a b) = true ↔ a = b := by
  rw [allTrue_iff]
  constructor
  · intro h
    refine Vec.ext_lane s fun k hk => BitVec.eq_of_toNat_eq ?_
    exact (lane_compare_ne_zero_iff .eq hk).1 (h k hk)
  · rintro rfl k hk
    exact (lane_compare_ne_zero_iff .eq hk).2 rfl

theorem anyTrue_ne_iff : s.anyTrue (s.binary (.compare .ne) a b) = true ↔ a ≠ b := by
  rw [anyTrue_iff]
  constructor
  · rintro ⟨k, hk, hne⟩ rfl
    exact (lane_compare_ne_zero_iff .ne hk).1 hne rfl
  · intro hne
    by_contra hnone
    refine hne (Vec.ext_lane s fun k hk => BitVec.eq_of_toNat_eq ?_)
    by_contra hlane
    exact hnone ⟨k, hk, (lane_compare_ne_zero_iff .ne hk).2 hlane⟩

theorem testBit_bitmask_compare (relation : IntCompare) :
    (s.bitmask (s.binary (.compare relation) a b)).testBit i = true ↔
      i < s.lanes ∧ relation.Relates (a.lane s i) (b.lane s i) := by
  rw [testBit_bitmask, Bool.and_eq_true, decide_eq_true_iff]
  refine and_congr_right fun hi => ?_
  rw [lane_compare relation hi, Vec.msb_mask _ (Shape.laneBits_pos s), relation.holds_iff]

/-! ## Wider lanes -/

/-- How many lanes of a narrow shape make up a lane of a wide one. -/
def lanesPer (s t : IntShape) : ℕ :=
  t.laneBits / s.laneBits

theorem lanesPer_mul_laneBits (h : s.laneBits < t.laneBits) :
    s.lanesPer t * s.laneBits = t.laneBits :=
  Nat.div_mul_cancel (laneBits_dvd h)

theorem lanesPer_pos (h : s.laneBits < t.laneBits) : 0 < s.lanesPer t :=
  Nat.div_pos h.le (Shape.laneBits_pos s)

theorem lanesPer_mul_lanes (h : s.laneBits < t.laneBits) : s.lanesPer t * t.lanes = s.lanes := by
  refine Nat.eq_of_mul_eq_mul_right (Shape.laneBits_pos s) ?_
  calc s.lanesPer t * t.lanes * s.laneBits = t.lanes * (s.lanesPer t * s.laneBits) := by ring
    _ = t.lanes * t.laneBits := by rw [lanesPer_mul_laneBits h]
    _ = s.lanes * s.laneBits := by
      rw [Shape.lanes_mul_laneBits t, Shape.lanes_mul_laneBits s]

/-- A wide lane is nonzero if its first narrow lane is. -/
theorem lane_ne_zero_wider (h : s.laneBits < t.laneBits) (hne : v.lane s (j * s.lanesPer t) ≠ 0#_) :
    v.lane t j ≠ 0#_ := by
  intro hzero
  have hfirst : Word.slice (v.lane t j) s.laneBits 0 = v.lane s (j * s.lanesPer t) := by
    rw [Vec.lane_eq_slice, Vec.lane_eq_slice]
    exact Word.slice_slice v.bits (lanesPer_mul_laneBits h) (lanesPer_pos h) j
  rw [hzero] at hfirst
  exact hne (hfirst.symm.trans (BitVec.extractLsb'_zero ..))

theorem allTrue_wider (h : s.laneBits < t.laneBits) (hall : s.allTrue v = true) :
    t.allTrue v = true := by
  rw [allTrue_iff] at hall ⊢
  intro j hj
  refine lane_ne_zero_wider h (hall _ ?_)
  rw [← lanesPer_mul_lanes h, Nat.mul_comm]
  exact Nat.mul_lt_mul_of_pos_left hj (lanesPer_pos h)

/-- A wide lane has the sign of its last narrow lane. -/
theorem msb_lane_wider (h : s.laneBits < t.laneBits) (v : Vec) (j : ℕ) :
    (v.lane t j).msb = (v.lane s (s.lanesPer t * j + s.lanesPer t - 1)).msb := by
  have hs : 0 < s.laneBits := Shape.laneBits_pos s
  have hbits := lanesPer_mul_laneBits h
  have hr := lanesPer_pos h
  generalize s.lanesPer t = r at hbits hr
  have hplace : (r * j + r - 1) * s.laneBits + (s.laneBits - 1) =
      j * t.laneBits + (t.laneBits - 1) := by
    obtain ⟨m, rfl⟩ := Nat.exists_eq_add_of_lt hr
    have hlast : ((m + 1) * j + m) * s.laneBits + s.laneBits =
        j * ((m + 1) * s.laneBits) + (m + 1) * s.laneBits := by ring
    have hwide : 0 < (m + 1) * s.laneBits := Nat.mul_pos m.succ_pos hs
    rw [← hbits, Nat.zero_add, ← Nat.add_assoc, Nat.add_sub_cancel]
    omega
  rw [Vec.msb_lane, Vec.msb_lane, hplace]

theorem testBit_bitmask_wider (h : s.laneBits < t.laneBits) (v : Vec) (j : ℕ) :
    (t.bitmask v).testBit j =
      (s.bitmask v).testBit (s.lanesPer t * j + s.lanesPer t - 1) := by
  have hpos := lanesPer_pos h
  have hinside : j < t.lanes ↔ s.lanesPer t * j + s.lanesPer t - 1 < s.lanes := by
    rw [← lanesPer_mul_lanes h, ← Nat.succ_le_iff, ← Nat.mul_le_mul_left_iff hpos, Nat.mul_succ]
    omega
  rw [testBit_bitmask, testBit_bitmask, msb_lane_wider h, decide_eq_decide.2 hinside]

/-! ## All shapes -/

/-- Whether some lane is nonzero does not depend on the shape; comparisons reduce to the equality of
vectors and to the relations of the lanes; the signs are the bits of the mask. Wide lanes are
nonzero if the narrow ones are, and their signs are those of the last narrow lanes. -/
theorem reductions_agree (a b v : Vec) :
    (∀ s : IntShape, s.anyTrue v = v.anyTrue) ∧
    (∀ s : IntShape, (s.allTrue (s.binary (.compare .eq) a b) = true ↔ a = b) ∧
      (s.anyTrue (s.binary (.compare .ne) a b) = true ↔ a ≠ b)) ∧
    (∀ (s : IntShape) (i : ℕ),
      (s.bitmask v).testBit i = true ↔ i < s.lanes ∧ (v.lane s i).toInt < 0) ∧
    (∀ (s : IntShape) (relation : IntCompare) (i : ℕ),
      (s.bitmask (s.binary (.compare relation) a b)).testBit i = true ↔
        i < s.lanes ∧ relation.Relates (a.lane s i) (b.lane s i)) ∧
    ∀ s t : IntShape, s.laneBits < t.laneBits →
      (s.allTrue v = true → t.allTrue v = true) ∧
      ∀ j, (t.bitmask v).testBit j =
        (s.bitmask v).testBit (s.lanesPer t * j + s.lanesPer t - 1) := by
  refine ⟨fun s => ?_, fun s => ⟨allTrue_eq_iff, anyTrue_ne_iff⟩,
    fun s i => testBit_bitmask_iff, fun s relation i => testBit_bitmask_compare relation,
    fun s t h => ⟨allTrue_wider h, testBit_bitmask_wider h v⟩⟩
  rw [Bool.eq_iff_iff, anyTrue_iff, Vec.anyTrue_iff v s]

/-- Of a vector whose first and last byte are negative, only the last word is. -/
theorem reductions_agree_ends :
    laneBits .i8x16 < laneBits .i32x4 ∧
      i8x16.allTrue (.ofPair 0x0101010101010180 0x8001010101010101) = true ∧
      i32x4.allTrue (.ofPair 0x0101010101010180 0x8001010101010101) = true ∧
      (i32x4.bitmask (.ofPair 0x0101010101010180 0x8001010101010101)).testBit 0 = false ∧
      (i32x4.bitmask (.ofPair 0x0101010101010180 0x8001010101010101)).testBit 3 = true := by
  have hlt : laneBits .i8x16 < laneBits .i32x4 := by decide
  have hall : i8x16.allTrue (.ofPair 0x0101010101010180 0x8001010101010101) = true := by
    decide +kernel
  have h := (reductions_agree .zero .zero
    (.ofPair 0x0101010101010180 0x8001010101010101)).2.2.2.2 .i8x16 .i32x4 hlt
  refine ⟨hlt, hall, h.1 hall, (h.2 0).trans ?_, (h.2 3).trans ?_⟩
  · decide +kernel
  · decide +kernel

end IntShape

end Lanewise
