import Mathlib.Data.Nat.Basic
import Lanewise.Vec.Bitwise

/-!
# The bits of a vector

A vector is told by its bits, and each shape finds them in its lanes : bit `pos` is bit
`pos % w` of lane `pos / w` (`Vec.getLsbD_lane_mod`). So one position can be followed through
operations of different shapes, and logic on the two halves of a vector is logic at each position
(`Vec.getLsbD_zipHalves`).
-/

namespace Lanewise

namespace Vec

variable (s : Shape) (v : Vec)

/-! ## Lanes -/

theorem getLsbD_lane (k i : ℕ) : (v.lane s k).getLsbD i =
    (decide (i < s.laneBits) && v.bits.getLsbD (k * s.laneBits + i)) := by
  rw [lane_eq_slice]
  exact BitVec.getLsbD_extractLsb' ..

theorem getLsbD_lane_of_lt (k : ℕ) {i : ℕ} (h : i < s.laneBits) :
    (v.lane s k).getLsbD i = v.bits.getLsbD (k * s.laneBits + i) := by
  rw [getLsbD_lane, decide_eq_true h, Bool.true_and]

/-- The sign of a lane is its last bit. -/
theorem msb_lane (k : ℕ) :
    (v.lane s k).msb = v.bits.getLsbD (k * s.laneBits + (s.laneBits - 1)) := by
  rw [BitVec.msb_eq_getLsbD_last, getLsbD_lane_of_lt _ _ _ (Nat.sub_one_lt_of_lt s.laneBits_pos)]

/-- Every bit is in a lane. -/
theorem getLsbD_lane_mod (pos : ℕ) :
    (v.lane s (pos / s.laneBits)).getLsbD (pos % s.laneBits) = v.bits.getLsbD pos := by
  rw [getLsbD_lane_of_lt _ _ _ (Nat.mod_lt _ s.laneBits_pos), Nat.mul_comm, Nat.div_add_mod]

theorem bits_zero : zero.bits = 0#128 := by
  decide

theorem lane_zero (k : ℕ) : zero.lane s k = 0#_ := by
  rw [lane_eq_slice, bits_zero]
  exact BitVec.extractLsb'_zero

theorem div_laneBits_lt {pos : ℕ} (h : pos < 128) : pos / s.laneBits < s.lanes := by
  refine Nat.div_lt_of_lt_mul ?_
  rwa [Nat.mul_comm, s.lanes_mul_laneBits]

theorem ext_bits {v w : Vec} (h : ∀ pos < 128, v.bits.getLsbD pos = w.bits.getLsbD pos) :
    v = w :=
  ext (BitVec.eq_of_getLsbD_eq h)

/-! ## Every lane at once -/

variable {s} {pos : ℕ}

theorem getLsbD_splat (x : BitVec s.laneBits) (h : pos < 128) :
    (splat s x).bits.getLsbD pos = x.getLsbD (pos % s.laneBits) := by
  rw [← getLsbD_lane_mod s, lane_splat s x _ (div_laneBits_lt s h)]

theorem getLsbD_map (f : BitVec s.laneBits → BitVec s.laneBits) (h : pos < 128) :
    (map s f v).bits.getLsbD pos =
      (f (v.lane s (pos / s.laneBits))).getLsbD (pos % s.laneBits) := by
  rw [← getLsbD_lane_mod s, lane_map s f v _ (div_laneBits_lt s h)]

theorem getLsbD_zipWith (f : BitVec s.laneBits → BitVec s.laneBits → BitVec s.laneBits)
    (w : Vec) (h : pos < 128) :
    (zipWith s f v w).bits.getLsbD pos =
      (f (v.lane s (pos / s.laneBits)) (w.lane s (pos / s.laneBits))).getLsbD
        (pos % s.laneBits) := by
  rw [← getLsbD_lane_mod s, lane_zipWith s f v w _ (div_laneBits_lt s h)]

/-! ## Masks -/

theorem getLsbD_mask {w i : ℕ} (p : Bool) (h : i < w) : (mask p : BitVec w).getLsbD i = p := by
  cases p <;> simp [mask, h]

theorem msb_mask {w : ℕ} (p : Bool) (h : 0 < w) : (mask p : BitVec w).msb = p := by
  rw [BitVec.msb_eq_getLsbD_last, getLsbD_mask p (Nat.sub_one_lt_of_lt h)]

theorem mask_ne_zero_iff {w : ℕ} {p : Bool} (h : 0 < w) : mask p ≠ 0#w ↔ p = true := by
  have hones : BitVec.allOnes w ≠ 0#w := fun heq => by
    have hbit := congrArg (·.getLsbD 0) heq
    simp [h] at hbit
  cases p <;> simp [mask, hones]

theorem not_mask {w : ℕ} (p : Bool) : ~~~(mask p : BitVec w) = mask !p := by
  cases p <;> simp [mask]

theorem mask_or_mask {w : ℕ} (p q : Bool) : (mask p ||| mask q : BitVec w) = mask (p || q) := by
  cases p <;> cases q <;> simp [mask]

theorem mask_and_mask {w : ℕ} (p q : Bool) : (mask p &&& mask q : BitVec w) = mask (p && q) := by
  cases p <;> cases q <;> simp [mask]

/-! ## Halves -/

theorem getLsbD_low {i : ℕ} (h : i < 64) : v.toPair.1.getLsbD i = v.bits.getLsbD i := by
  rw [toPair, BitVec.getLsbD_setWidth, decide_eq_true h, Bool.true_and]

theorem getLsbD_high {i : ℕ} (h : i < 64) : v.toPair.2.getLsbD i = v.bits.getLsbD (64 + i) := by
  rw [toPair, BitVec.getLsbD_setWidth, BitVec.getLsbD_ushiftRight, decide_eq_true h, Bool.true_and]

theorem ofPair_toPair : ofPair v.toPair.1 v.toPair.2 = v := by
  refine ext_bits fun pos hpos => ?_
  rw [getLsbD_ofPair _ _ hpos]
  split
  case isTrue hlow => rw [getLsbD_low v hlow]
  case isFalse hlow => rw [getLsbD_high v (by omega), Nat.add_sub_cancel' (not_lt.1 hlow)]

theorem toPair_ofPair (low high : BitVec 64) : (ofPair low high).toPair = (low, high) := by
  refine Prod.ext (BitVec.eq_of_getLsbD_eq fun i hi => ?_) (BitVec.eq_of_getLsbD_eq fun i hi => ?_)
  · rw [getLsbD_low _ hi, getLsbD_ofPair _ _ (by omega), if_pos hi]
  · rw [getLsbD_high _ hi, getLsbD_ofPair _ _ (by omega), if_neg (by omega),
      Nat.add_sub_cancel_left]

/-- A function that works on the bits of a half one by one works so on the whole vector. -/
theorem getLsbD_mapHalves {f : BitVec 64 → BitVec 64} {g : Bool → Bool}
    (hf : ∀ (x : BitVec 64) (i : ℕ), i < 64 → (f x).getLsbD i = g (x.getLsbD i)) (h : pos < 128) :
    (mapHalves f v).bits.getLsbD pos = g (v.bits.getLsbD pos) := by
  rw [mapHalves, getLsbD_ofPair _ _ h]
  split
  case isTrue hlow => rw [hf _ _ hlow, getLsbD_low v hlow]
  case isFalse hlow =>
    have hhigh : pos - 64 < 64 := by omega
    rw [hf _ _ hhigh, getLsbD_high v hhigh, Nat.add_sub_cancel' (not_lt.1 hlow)]

theorem getLsbD_zipHalves {f : BitVec 64 → BitVec 64 → BitVec 64} {g : Bool → Bool → Bool}
    (hf : ∀ (x y : BitVec 64) (i : ℕ), i < 64 →
      (f x y).getLsbD i = g (x.getLsbD i) (y.getLsbD i)) (w : Vec) (h : pos < 128) :
    (zipHalves f v w).bits.getLsbD pos = g (v.bits.getLsbD pos) (w.bits.getLsbD pos) := by
  rw [zipHalves, getLsbD_ofPair _ _ h]
  split
  case isTrue hlow => rw [hf _ _ _ hlow, getLsbD_low v hlow, getLsbD_low w hlow]
  case isFalse hlow =>
    have hhigh : pos - 64 < 64 := by omega
    rw [hf _ _ _ hhigh, getLsbD_high v hhigh, getLsbD_high w hhigh,
      Nat.add_sub_cancel' (not_lt.1 hlow)]

/-! ## Logic -/

variable (a b mask : Vec)

theorem getLsbD_not (h : pos < 128) : (~~~a).bits.getLsbD pos = !a.bits.getLsbD pos :=
  getLsbD_mapHalves a (fun x i hi => by simp [hi]) h

theorem bits_and : (a &&& b).bits = a.bits &&& b.bits :=
  BitVec.eq_of_getLsbD_eq fun pos h => by
    rw [BitVec.getLsbD_and]
    exact getLsbD_zipHalves a (fun _ _ _ _ => BitVec.getLsbD_and) b h

theorem bits_or : (a ||| b).bits = a.bits ||| b.bits :=
  BitVec.eq_of_getLsbD_eq fun pos h => by
    rw [BitVec.getLsbD_or]
    exact getLsbD_zipHalves a (fun _ _ _ _ => BitVec.getLsbD_or) b h

theorem bits_xor : (a ^^^ b).bits = a.bits ^^^ b.bits :=
  BitVec.eq_of_getLsbD_eq fun pos h => by
    rw [BitVec.getLsbD_xor]
    exact getLsbD_zipHalves a (fun _ _ _ _ => BitVec.getLsbD_xor) b h

theorem andNot_eq : a.andNot b = a &&& ~~~b := by
  refine ext_bits fun pos h => ?_
  rw [bits_and, BitVec.getLsbD_and, getLsbD_not b h]
  exact getLsbD_zipHalves a (g := fun p q => p && !q) (fun x y i hi => by simp [hi]) b h

/-- A selection masks the first vector, clears the mask in the second and joins the two. -/
theorem bitselect_eq : a.bitselect b mask = (a &&& mask) ||| (b &&& ~~~mask) := by
  rw [← andNot_eq]
  rfl

theorem getLsbD_and (pos : ℕ) :
    (a &&& b).bits.getLsbD pos = (a.bits.getLsbD pos && b.bits.getLsbD pos) := by
  rw [bits_and, BitVec.getLsbD_and]

theorem getLsbD_or (pos : ℕ) :
    (a ||| b).bits.getLsbD pos = (a.bits.getLsbD pos || b.bits.getLsbD pos) := by
  rw [bits_or, BitVec.getLsbD_or]

theorem getLsbD_xor (pos : ℕ) :
    (a ^^^ b).bits.getLsbD pos = (a.bits.getLsbD pos ^^ b.bits.getLsbD pos) := by
  rw [bits_xor, BitVec.getLsbD_xor]

theorem anyTrue_iff_ne_zero : a.anyTrue = true ↔ a ≠ zero := by
  have hhalves : a.anyTrue = (a.toPair.1 ||| a.toPair.2 != 0#64) := rfl
  have hzero : a.toPair.1 ||| a.toPair.2 = 0#64 ↔ a = zero := by
    rw [BitVec.or_eq_zero_iff]
    constructor
    · rintro ⟨hlow, hhigh⟩
      have hpair : zero = ofPair 0#64 0#64 := by decide
      rw [← ofPair_toPair a, hlow, hhigh, hpair]
    · rintro rfl
      decide
  rw [hhalves, bne_iff_ne, ne_eq, hzero]

/-- The lanes of a complement are the complements of the lanes. -/
theorem lane_not (s : Shape) {k : ℕ} (h : k < s.lanes) : (~~~a).lane s k = ~~~a.lane s k := by
  refine BitVec.eq_of_getLsbD_eq fun i hi => ?_
  have hpos : k * s.laneBits + i < 128 := by
    have hle := Nat.mul_le_mul_right s.laneBits (Nat.succ_le_of_lt h)
    rw [Nat.succ_mul, s.lanes_mul_laneBits] at hle
    omega
  rw [getLsbD_lane_of_lt _ _ _ hi, getLsbD_not _ hpos, BitVec.getLsbD_not,
    getLsbD_lane_of_lt _ _ _ hi, decide_eq_true hi, Bool.true_and]

end Vec

end Lanewise
