import Lanewise.Proofs.Float.Settled
import Lanewise.Proofs.Vec.Logic

/-!
# The order of float lanes

The value of a pattern grows with its magnitude bits, so patterns that are not NaNs are compared by
an integer that is read off the bits : `Format.key`, the magnitude with the sign in front. Both
zeros have the key zero. A NaN stands in no relation and differs from everything
(`FloatCompare.holds_eq`). The order of the bits themselves, in which NaNs have a place too, is that
of the numbers where there is no sign and the reverse where there is one
(`Format.compareBits_of_sign_eq`).

A lane of a comparison is the mask of such a decision (`FloatShape.lane_compare`), and what holds of
the decisions holds of vectors. `FloatShape.comparisons_decide_order` : the masks of less, equal and
greater are disjoint, they cover the lanes without a NaN, and the other masks are made of them.
-/

namespace Lanewise

/-- A scale that grows strictly from zero keeps the order of signed numbers. -/
theorem Datum.signed_le_signed_iff {f : ℕ → ℕ} (hf : StrictMono f) (hzero : f 0 = 0) (a b : Bool)
    (m n : ℕ) : signed a (f m) ≤ signed b (f n) ↔ signed a m ≤ signed b n := by
  have hmn : f m ≤ f n ↔ m ≤ n := hf.le_iff_le
  have hnm : f n ≤ f m ↔ n ≤ m := hf.le_iff_le
  have hm : f m ≤ f 0 ↔ m ≤ 0 := hf.le_iff_le
  have hn : f n ≤ f 0 ↔ n ≤ 0 := hf.le_iff_le
  rw [hzero] at hm hn
  cases a <;> cases b <;> simp [signed] <;> omega

namespace Format

variable {fmt : Format} {x y : fmt.Pattern}

/-! ## Keys -/

/-- The magnitude bits as an integer, negated if the sign bit is set. -/
def key (x : fmt.Pattern) : ℤ :=
  Datum.signed (isNegative x) (magnitude x)

/-- The order of the values is the order of the keys. -/
theorem value_le_value_iff (x y : fmt.Pattern) :
    Datum.signed (isNegative x) (units x) ≤ Datum.signed (isNegative y) (units y) ↔
      key x ≤ key y := by
  have hzero : fmt.magnitudeUnits 0 = 0 := by simp [magnitudeUnits]
  rw [units_eq_magnitudeUnits, units_eq_magnitudeUnits]
  exact Datum.signed_le_signed_iff fmt.strictMono_magnitudeUnits hzero ..

end Format

namespace FloatCompare

open Format

variable {fmt : Format}

/-! ## Comparisons -/

/-- The relation of two keys. -/
def Relates : FloatCompare → ℤ → ℤ → Prop
  | eq, m, n => m = n
  | ne, m, n => m ≠ n
  | lt, m, n => m < n
  | gt, m, n => n < m
  | le, m, n => m ≤ n
  | ge, m, n => n ≤ m

instance (relation : FloatCompare) (m n : ℤ) : Decidable (relation.Relates m n) :=
  match relation with
  | eq => inferInstanceAs (Decidable (_ = _))
  | ne => inferInstanceAs (Decidable (_ ≠ _))
  | lt | gt => inferInstanceAs (Decidable (_ < _))
  | le | ge => inferInstanceAs (Decidable (_ ≤ _))

theorem holds_of_isNaN (relation : FloatCompare) {x y : fmt.Pattern}
    (h : isNaN x = true ∨ isNaN y = true) : relation.holds x y = decide (relation = ne) := by
  cases relation with
  | ne => rw [holds, Format.ne, Format.eq, related_of_isNaN h]; rfl
  | _ => exact related_of_isNaN h

/-- Numbers are compared by their keys. -/
theorem holds_iff (relation : FloatCompare) {x y : fmt.Pattern} (hx : isNaN x = false)
    (hy : isNaN y = false) : relation.holds x y = true ↔ relation.Relates (key x) (key y) := by
  have hxy := value_le_value_iff x y
  have hyx := value_le_value_iff y x
  cases relation <;>
    simp only [holds, Format.eq, Format.ne, Format.lt, Format.gt, Format.le, Format.ge, related,
      value?_of_not_isNaN hx, value?_of_not_isNaN hy, Relates, Bool.not_eq_true', beq_iff_eq,
      beq_eq_false_iff_ne, decide_eq_true_eq] <;>
    omega

theorem holds_of_not_isNaN (relation : FloatCompare) {x y : fmt.Pattern}
    (hx : isNaN x = false) (hy : isNaN y = false) :
    relation.holds x y = decide (relation.Relates (key x) (key y)) := by
  rw [Bool.eq_iff_iff, decide_eq_true_iff, relation.holds_iff hx hy]

/-- A comparison is decided by NaNs and keys. -/
theorem holds_eq (relation : FloatCompare) (x y : fmt.Pattern) : relation.holds x y =
    if isNaN x || isNaN y then decide (relation = ne)
    else decide (relation.Relates (key x) (key y)) := by
  split_ifs with h
  · rw [Bool.or_eq_true] at h
    exact relation.holds_of_isNaN h
  · obtain ⟨hx, hy⟩ : isNaN x = false ∧ isNaN y = false := by simpa using h
    exact relation.holds_of_not_isNaN hx hy

/-- Less holds of no NaN. -/
theorem lt_iff {x y : fmt.Pattern} :
    Format.lt x y = true ↔ isNaN x = false ∧ isNaN y = false ∧ key x < key y := by
  have hnan (h : isNaN x = true ∨ isNaN y = true) : Format.lt x y = false := related_of_isNaN h
  cases hx : isNaN x with
  | true => simp [hnan (Or.inl hx)]
  | false =>
    cases hy : isNaN y with
    | true => simp [hnan (Or.inr hy)]
    | false =>
      have hlt : Format.lt x y = true ↔ key x < key y := lt.holds_iff hx hy
      simpa using hlt

variable (x y : fmt.Pattern)

theorem holds_gt : gt.holds x y = lt.holds y x := by
  rw [holds_eq, holds_eq, Bool.or_comm]
  rfl

theorem holds_le : le.holds x y = (lt.holds x y || eq.holds x y) := by
  simp only [holds_eq]
  split_ifs
  · rfl
  · rw [← Bool.decide_or, decide_eq_decide]
    exact le_iff_lt_or_eq

theorem holds_ge : ge.holds x y = (gt.holds x y || eq.holds x y) := by
  simp only [holds_eq]
  split_ifs
  · rfl
  · rw [← Bool.decide_or, decide_eq_decide]
    exact le_iff_lt_or_eq.trans (or_congr_right eq_comm)

/-- Of less, equal and greater at most one holds. -/
theorem holds_disjoint : (lt.holds x y && eq.holds x y) = false ∧
    (lt.holds x y && gt.holds x y) = false ∧ (eq.holds x y && gt.holds x y) = false := by
  simp only [holds_eq]
  split_ifs
  · exact ⟨rfl, rfl, rfl⟩
  · -- The decisions go first, since their instances do not survive unfolding the relations.
    simp only [Bool.and_eq_false_iff, decide_eq_false_iff_not]
    simp only [Relates]
    omega

/-- None of less, equal and greater holds exactly if there is a NaN. -/
theorem holds_total : (!(lt.holds x y || eq.holds x y || gt.holds x y)) = (isNaN x || isNaN y) := by
  simp only [holds_eq]
  split_ifs with h
  · exact h.symm
  · rw [Bool.eq_false_iff.2 h, Bool.not_eq_false', ← Bool.decide_or, ← Bool.decide_or,
      decide_eq_true_iff]
    exact or_assoc.2 (lt_trichotomy (key x) (key y))

end FloatCompare

namespace Format

variable {fmt : Format} {x y : fmt.Pattern}

/-! ## The order of the bits -/

/-- The bits tell every two patterns apart, NaNs and both zeros included. -/
theorem compareBits_eq_iff : compareBits x y = .eq ↔ x = y := by
  rw [compareBits, Nat.compare_eq_eq, BitVec.toNat_inj]

/-- The sign bit is the highest one. -/
theorem toNat_eq_magnitude (x : fmt.Pattern) : x.toNat =
    (if isNegative x then 2 ^ (fmt.exponentBits + fmt.mantissaBits) else 0) + magnitude x := by
  have h := toNat_pattern (isNegative x) (magnitude_lt x)
  rwa [pattern_magnitude] at h

/-- The patterns without a sign come before those with one. -/
theorem compareBits_of_sign_ne (hx : isNegative x = false) (hy : isNegative y = true) :
    compareBits x y = .lt := by
  have hmag := magnitude_lt x
  rw [compareBits, Nat.compare_eq_lt, toNat_eq_magnitude x, toNat_eq_magnitude y, hx, hy]
  simpa using hmag.trans_le (Nat.le_add_right _ _)

/-- Numbers of one sign are in the order of their bits, or in the reverse order if they are
negative. -/
theorem compareBits_of_sign_eq (hx : isNaN x = false) (hy : isNaN y = false)
    (hsign : isNegative x = isNegative y) : compareBits x y = .lt ↔
      (if isNegative x then Format.lt y x else Format.lt x y) = true := by
  rw [compareBits, Nat.compare_eq_lt, toNat_eq_magnitude x, toNat_eq_magnitude y, ← hsign,
    Nat.add_lt_add_iff_left]
  split_ifs with hnegative
  · simp [FloatCompare.lt_iff, hx, hy, key, Datum.signed, ← hsign, hnegative]
  · simp [FloatCompare.lt_iff, hx, hy, key, Datum.signed, ← hsign, hnegative]

end Format

/-! ## Vectors -/

namespace FloatShape

variable {s : FloatShape} {a b : Vec} {k : ℕ}

theorem lane_compare (relation : FloatCompare) (h : k < s.lanes) :
    (s.binary (.compare relation) a b).lane s k =
      Vec.mask (@FloatCompare.holds s.format relation (a.lane s k) (b.lane s k)) :=
  s.lane_binary _ a b k h

/-- A decision that is one of two others has the union of their masks. -/
theorem compare_eq_or {p q r : FloatCompare}
    (h : ∀ x y : s.format.Pattern, p.holds x y = (q.holds x y || r.holds x y)) (a b : Vec) :
    s.binary (.compare p) a b = s.binary (.compare q) a b ||| s.binary (.compare r) a b := by
  refine Vec.ext_lane s fun k hk => ?_
  rw [Vec.lane_or, lane_compare p hk, lane_compare q hk, lane_compare r hk, Vec.mask_or_mask, h]

/-- Decisions that exclude each other have disjoint masks. -/
theorem compare_and_eq_zero {q r : FloatCompare}
    (h : ∀ x y : s.format.Pattern, (q.holds x y && r.holds x y) = false) (a b : Vec) :
    s.binary (.compare q) a b &&& s.binary (.compare r) a b = .zero := by
  refine Vec.ext_lane s fun k hk => ?_
  rw [Vec.lane_and, lane_compare q hk, lane_compare r hk, Vec.mask_and_mask, h, Vec.lane_zero]
  rfl

theorem compare_ne_eq_not (s : FloatShape) (a b : Vec) :
    s.binary (.compare .ne) a b = ~~~s.binary (.compare .eq) a b := by
  refine Vec.ext_lane s fun k hk => ?_
  rw [Vec.lane_not _ s hk, lane_compare _ hk, lane_compare _ hk, Vec.not_mask]
  rfl

theorem compare_gt_eq_lt (s : FloatShape) (a b : Vec) :
    s.binary (.compare .gt) a b = s.binary (.compare .lt) b a := by
  refine Vec.ext_lane s fun k hk => ?_
  rw [lane_compare _ hk, lane_compare _ hk, FloatCompare.holds_gt]

/-- A lane of a comparison is all ones if the relation holds of the keys and all zeros if not; where
a lane is a NaN, only the inequality holds. So the masks of less, equal and greater are disjoint,
leave out the lanes with a NaN and make up the other masks. -/
theorem comparisons_decide_order (s : FloatShape) (a b : Vec) :
    (∀ (relation : FloatCompare) (k : ℕ), k < s.lanes →
      (@Format.isNaN s.format (a.lane s k) = true ∨ @Format.isNaN s.format (b.lane s k) = true →
        (s.binary (.compare relation) a b).lane s k =
          if relation = .ne then BitVec.allOnes _ else 0#_) ∧
      (@Format.isNaN s.format (a.lane s k) = false → @Format.isNaN s.format (b.lane s k) = false →
        (s.binary (.compare relation) a b).lane s k =
          if relation.Relates (@Format.key s.format (a.lane s k))
            (@Format.key s.format (b.lane s k)) then BitVec.allOnes _ else 0#_)) ∧
    s.binary (.compare .ne) a b = ~~~s.binary (.compare .eq) a b ∧
    s.binary (.compare .le) a b = s.binary (.compare .lt) a b ||| s.binary (.compare .eq) a b ∧
    s.binary (.compare .ge) a b = s.binary (.compare .gt) a b ||| s.binary (.compare .eq) a b ∧
    s.binary (.compare .gt) a b = s.binary (.compare .lt) b a ∧
    (s.binary (.compare .lt) a b &&& s.binary (.compare .eq) a b = .zero ∧
      s.binary (.compare .lt) a b &&& s.binary (.compare .gt) a b = .zero ∧
      s.binary (.compare .eq) a b &&& s.binary (.compare .gt) a b = .zero) ∧
    (∀ k < s.lanes, (~~~(s.binary (.compare .lt) a b ||| s.binary (.compare .eq) a b |||
        s.binary (.compare .gt) a b)).lane s k =
      if @Format.isNaN s.format (a.lane s k) || @Format.isNaN s.format (b.lane s k) then
        BitVec.allOnes _ else 0#_) ∧
    ∀ relation : FloatCompare, (Instr.floatBinary s (.compare relation)).execute
      [.v128 a, .v128 b] = .ok (.v128 (s.binary (.compare relation) a b)) := by
  refine ⟨fun relation k hk => ⟨fun h => ?_, fun ha hb => ?_⟩, compare_ne_eq_not s a b,
    compare_eq_or FloatCompare.holds_le a b, compare_eq_or FloatCompare.holds_ge a b,
    compare_gt_eq_lt s a b, ⟨?_, ?_, ?_⟩, fun k hk => ?_, fun relation => rfl⟩
  · rw [lane_compare relation hk, relation.holds_of_isNaN h]
    simp [Vec.mask]
  · rw [lane_compare relation hk, relation.holds_of_not_isNaN ha hb]
    simp [Vec.mask]
  · exact compare_and_eq_zero (fun x y => (FloatCompare.holds_disjoint x y).1) a b
  · exact compare_and_eq_zero (fun x y => (FloatCompare.holds_disjoint x y).2.1) a b
  · exact compare_and_eq_zero (fun x y => (FloatCompare.holds_disjoint x y).2.2) a b
  · rw [Vec.lane_not _ s hk, Vec.lane_or, Vec.lane_or, lane_compare _ hk, lane_compare _ hk,
      lane_compare _ hk, Vec.mask_or_mask, Vec.mask_or_mask, Vec.not_mask,
      FloatCompare.holds_total]
    rfl

/-- The greatest negative number in the first lane, an infinity in the last. -/
def numbers : Vec :=
  .ofPair 0x8000000000000001 0x7FF0000000000000

/-- The negative zero in the first lane, a negative signalling NaN in the last. -/
def zeroAndNaN : Vec :=
  .ofPair 0x8000000000000000 0xFFF0000000000001

/-- The zeros are equal, the greatest negative number is less than both, and an infinity is neither
less than a NaN nor equal to it nor greater. -/
theorem comparisons_decide_order_zeros :
    1 < lanes .f64x2 ∧
      (f64x2.binary (.compare .eq) zeroAndNaN .zero).lane f64x2 0 = BitVec.allOnes 64 ∧
      (f64x2.binary (.compare .lt) numbers zeroAndNaN).lane f64x2 0 = BitVec.allOnes 64 ∧
      (f64x2.binary (.compare .ne) numbers zeroAndNaN).lane f64x2 1 = BitVec.allOnes 64 ∧
      (~~~(f64x2.binary (.compare .lt) numbers zeroAndNaN |||
        f64x2.binary (.compare .eq) numbers zeroAndNaN |||
        f64x2.binary (.compare .gt) numbers zeroAndNaN)).lane f64x2 1 = BitVec.allOnes 64 := by
  have hfirst : 0 < lanes .f64x2 := by decide
  have hlast : 1 < lanes .f64x2 := by decide
  have hzeros := comparisons_decide_order f64x2 zeroAndNaN .zero
  have hmixed := comparisons_decide_order f64x2 numbers zeroAndNaN
  refine ⟨hlast, ?_, ?_, ?_, ?_⟩
  · exact ((hzeros.1 .eq 0 hfirst).2 (by decide) (by decide)).trans (by decide)
  · exact ((hmixed.1 .lt 0 hfirst).2 (by decide) (by decide)).trans (by decide)
  · exact ((hmixed.1 .ne 1 hlast).1 (Or.inr (by decide))).trans (by decide)
  · exact (hmixed.2.2.2.2.2.2.1 1 hlast).trans (by decide)

end FloatShape

end Lanewise
