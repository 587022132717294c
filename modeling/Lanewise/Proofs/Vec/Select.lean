import Lanewise.Proofs.Float.NaN
import Lanewise.Proofs.Vec.Logic

/-!
# Minima and maxima as selections

A lane of a comparison is all ones or all zeros, so a selection under a comparison takes every lane
as a whole from one of two vectors (`Vec.lane_bitselect_of_mask`). Minima and maxima of integers and
pseudo-minima and pseudo-maxima of floats choose each lane by one comparison, so they are such
selections, and a lane they choose keeps its bits.

`Vec.min_max_eq_bitselect` says so for every shape. Since a comparison with a NaN fails, the lane of
the first vector stays there, and so does a NaN that it holds.
-/

namespace Lanewise

namespace Vec

variable (a b : Vec) {s : Shape} {k : ℕ}

/-- Under a mask that fills a lane, the lane of a selection is that of one vector. -/
theorem lane_bitselect_of_mask {m : Vec} {p : Bool} (h : k < s.lanes) (hm : m.lane s k = mask p) :
    (a.bitselect b m).lane s k = if p then a.lane s k else b.lane s k := by
  rw [lane_bitselect a b m s h, hm]
  cases p with
  | true => simp [mask]
  | false => simp [mask]

/-- A vector whose lanes are chosen by a mask is a selection. -/
theorem eq_bitselect {v m : Vec} (s : Shape) (p : ℕ → Bool)
    (hm : ∀ k < s.lanes, m.lane s k = mask (p k))
    (hv : ∀ k < s.lanes, v.lane s k = if p k then a.lane s k else b.lane s k) :
    v = a.bitselect b m := by
  refine ext_lane s fun k hk => ?_
  rw [hv k hk, lane_bitselect_of_mask a b hk (hm k hk)]

/-! ## Integers -/

theorem min_eq_bitselect (s : IntShape) (sign : Signedness) :
    s.binary (.min sign) a b = a.bitselect b (s.binary (.compare (.lt sign)) a b) := by
  have hmask (k : ℕ) (hk : k < s.lanes) : (s.binary (.compare (.lt sign)) a b).lane s k =
      mask (sign.lt (a.lane s k) (b.lane s k)) := s.lane_binary _ a b k hk
  have hmin (k : ℕ) (hk : k < s.lanes) : (s.binary (.min sign) a b).lane s k =
      if sign.lt (a.lane s k) (b.lane s k) then a.lane s k else b.lane s k :=
    s.lane_binary _ a b k hk
  exact eq_bitselect a b s _ hmask hmin

theorem max_eq_bitselect (s : IntShape) (sign : Signedness) :
    s.binary (.max sign) a b = a.bitselect b (s.binary (.compare (.gt sign)) a b) := by
  have hmask (k : ℕ) (hk : k < s.lanes) : (s.binary (.compare (.gt sign)) a b).lane s k =
      mask (sign.lt (b.lane s k) (a.lane s k)) := s.lane_binary _ a b k hk
  have hmax (k : ℕ) (hk : k < s.lanes) : (s.binary (.max sign) a b).lane s k =
      if sign.lt (b.lane s k) (a.lane s k) then a.lane s k else b.lane s k :=
    s.lane_binary _ a b k hk
  exact eq_bitselect a b s _ hmask hmax

/-! ## Floats -/

/-- The second vector is the one that has to be less, so the selection starts from it. -/
theorem pmin_eq_bitselect (s : FloatShape) :
    s.binary .pmin a b = b.bitselect a (s.binary (.compare .lt) b a) := by
  have hmask (k : ℕ) (hk : k < s.lanes) : (s.binary (.compare .lt) b a).lane s k =
      mask (@Format.lt s.format (b.lane s k) (a.lane s k)) := s.lane_binary _ b a k hk
  have hmin (k : ℕ) (hk : k < s.lanes) : (s.binary .pmin a b).lane s k =
      if @Format.lt s.format (b.lane s k) (a.lane s k) then b.lane s k else a.lane s k :=
    s.lane_binary _ a b k hk
  exact eq_bitselect b a s _ hmask hmin

theorem pmax_eq_bitselect (s : FloatShape) :
    s.binary .pmax a b = b.bitselect a (s.binary (.compare .lt) a b) := by
  have hmask (k : ℕ) (hk : k < s.lanes) : (s.binary (.compare .lt) a b).lane s k =
      mask (@Format.lt s.format (a.lane s k) (b.lane s k)) := s.lane_binary _ a b k hk
  have hmax (k : ℕ) (hk : k < s.lanes) : (s.binary .pmax a b).lane s k =
      if @Format.lt s.format (a.lane s k) (b.lane s k) then b.lane s k else a.lane s k :=
    s.lane_binary _ a b k hk
  exact eq_bitselect b a s _ hmask hmax

/-- Where one of two lanes is a NaN, the first lane is chosen with the bits it has. -/
theorem lane_pmin_pmax_of_isNaN {s : FloatShape} (h : k < s.lanes)
    (hnan : @Format.isNaN s.format (a.lane s k) ∨ @Format.isNaN s.format (b.lane s k)) :
    (s.binary .pmin a b).lane s k = a.lane s k ∧
      (s.binary .pmax a b).lane s k = a.lane s k := by
  have hless : @Format.lt s.format (b.lane s k) (a.lane s k) = false :=
    Format.related_of_isNaN hnan.symm
  have hgreater : @Format.lt s.format (a.lane s k) (b.lane s k) = false :=
    Format.related_of_isNaN hnan
  constructor
  · rw [s.lane_binary .pmin a b k h, FloatBinary.lane, Format.pmin, hless]
    rfl
  · rw [s.lane_binary .pmax a b k h, FloatBinary.lane, Format.pmax, hgreater]
    rfl

/-! ## All shapes -/

/-- The minimum and the maximum of integers, of either reading, and the pseudo-minimum and the
pseudo-maximum of floats are selections under one comparison. NaNs are taken as they are. -/
theorem min_max_eq_bitselect (a b : Vec) :
    (∀ (s : IntShape) (sign : Signedness),
      s.binary (.min sign) a b = a.bitselect b (s.binary (.compare (.lt sign)) a b) ∧
      s.binary (.max sign) a b = a.bitselect b (s.binary (.compare (.gt sign)) a b)) ∧
    (∀ s : FloatShape,
      s.binary .pmin a b = b.bitselect a (s.binary (.compare .lt) b a) ∧
      s.binary .pmax a b = b.bitselect a (s.binary (.compare .lt) a b)) ∧
    ∀ (s : FloatShape) (k : ℕ), k < s.lanes →
      @Format.isNaN s.format (a.lane s k) ∨ @Format.isNaN s.format (b.lane s k) →
      (s.binary .pmin a b).lane s k = a.lane s k ∧
        (s.binary .pmax a b).lane s k = a.lane s k := by
  refine ⟨fun s sign => ⟨?_, ?_⟩, fun s => ⟨?_, ?_⟩, fun s k hk => ?_⟩
  · exact min_eq_bitselect a b s sign
  · exact max_eq_bitselect a b s sign
  · exact pmin_eq_bitselect a b s
  · exact pmax_eq_bitselect a b s
  · exact lane_pmin_pmax_of_isNaN a b hk

/-- A negative signalling NaN in the last lane stays signalling. -/
theorem min_max_eq_bitselect_signalling :
    3 < FloatShape.lanes .f32x4 ∧ @Format.isNaN .binary32 0xFFA00000#32 ∧
      (FloatShape.f32x4.binary .pmin (splat FloatShape.f32x4 0xFFA00000#32) zero).lane
        FloatShape.f32x4 3 = 0xFFA00000#32 := by
  have hlast : 3 < FloatShape.lanes .f32x4 := by decide
  have hnan : @Format.isNaN .binary32 0xFFA00000#32 := by decide
  have hlane := lane_splat FloatShape.f32x4 0xFFA00000#32 3 hlast
  have h := (min_max_eq_bitselect (splat FloatShape.f32x4 0xFFA00000#32) zero).2.2 .f32x4 3 hlast
  rw [hlane] at h
  exact ⟨hlast, hnan, (h (Or.inl hnan)).1⟩

end Vec

end Lanewise
