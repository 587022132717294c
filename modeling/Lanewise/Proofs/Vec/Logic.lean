import Lanewise.Proofs.Instr.Validation
import Lanewise.Proofs.Vec.Bits

/-!
# Logic ignores the shape

Logic works on the two halves of a vector and combines their bits one by one, so it combines the
bits of each lane one by one too, whichever shape cuts the vector into lanes. `Vec.logic` are the
results of the six operations and `Lane.logic` those of the same operations on lanes.

`Vec.logic_ignores_shape` : a lane of a result is the result of the lanes. The operators and the
instructions give the same vectors, and since a shape loses no bits, so do operands that were
decoded and encoded before. Whether some bit is set is told by the lanes of any shape.
-/

namespace Lanewise

/-- Complement, and, or, exclusive or, and-not and selection, on the bits of a lane. -/
def Lane.logic {w : ℕ} (x y mask : BitVec w) : List (BitVec w) :=
  [~~~x, x &&& y, x ||| y, x ^^^ y, x &&& ~~~y, (x &&& mask) ||| (y &&& ~~~mask)]

namespace Vec

variable (a b mask : Vec) (s : Shape) {k : ℕ}

/-- Complement, and, or, exclusive or, and-not and selection, on vectors. -/
def logic : List Vec :=
  [a.not, a.and b, a.or b, a.xor b, a.andNot b, a.bitselect b mask]

/-! ## Lanes -/

theorem lane_and (k : ℕ) : (a &&& b).lane s k = a.lane s k &&& b.lane s k := by
  simp only [lane_eq_slice, bits_and]
  exact BitVec.extractLsb'_and

theorem lane_or (k : ℕ) : (a ||| b).lane s k = a.lane s k ||| b.lane s k := by
  simp only [lane_eq_slice, bits_or]
  exact BitVec.extractLsb'_or

theorem lane_xor (k : ℕ) : (a ^^^ b).lane s k = a.lane s k ^^^ b.lane s k := by
  simp only [lane_eq_slice, bits_xor]
  exact BitVec.extractLsb'_xor

theorem lane_andNot (h : k < s.lanes) :
    (a.andNot b).lane s k = a.lane s k &&& ~~~b.lane s k := by
  rw [andNot_eq, lane_and, lane_not b s h]

theorem lane_bitselect (h : k < s.lanes) : (a.bitselect b mask).lane s k =
    (a.lane s k &&& mask.lane s k) ||| (b.lane s k &&& ~~~mask.lane s k) := by
  rw [bitselect_eq, lane_or, lane_and, lane_and, lane_not mask s h]

theorem logic_eq : logic a b mask =
    [~~~a, a &&& b, a ||| b, a ^^^ b, a.andNot b, a.bitselect b mask] :=
  rfl

theorem map_lane_logic (h : k < s.lanes) : (logic a b mask).map (·.lane s k) =
    Lane.logic (a.lane s k) (b.lane s k) (mask.lane s k) := by
  simp only [logic_eq, List.map_cons, List.map_nil, lane_not a s h, lane_and, lane_or, lane_xor,
    lane_andNot a b s h, lane_bitselect a b mask s h, Lane.logic]

/-! ## Shapes -/

/-- The vector made of its own lanes. -/
def recode (v : Vec) : Vec :=
  ofLanes s (v.lanes s)

theorem recode_eq (v : Vec) : v.recode s = v :=
  v.ofLanes_lanes s

/-- A vector with a bit set has a lane that is not zero, in every shape. -/
theorem anyTrue_iff : a.anyTrue = true ↔ ∃ k < s.lanes, a.lane s k ≠ 0#_ := by
  rw [anyTrue_iff_ne_zero]
  constructor
  · intro h
    by_contra hlanes
    refine h (ext_lane s fun k hk => ?_)
    rw [lane_zero]
    by_contra hne
    exact hlanes ⟨k, hk, hne⟩
  · rintro ⟨k, -, hne⟩ rfl
    exact hne (lane_zero s k)

/-! ## Results -/

theorem truth_eq_one_iff {p : Bool} : Instr.truth p = 1#32 ↔ p = true := by
  cases p <;> decide

/-- The lanes of the results are the results on lanes, in every shape, and nothing changes if the
operands are decoded and encoded before. The operators and the instructions give these results, and
the test for a set bit gives one exactly if some lane is not zero, whatever the shape. -/
theorem logic_ignores_shape (a b mask : Vec) :
    (∀ (s : Shape) (k : ℕ), k < s.lanes → (logic a b mask).map (·.lane s k) =
      Lane.logic (a.lane s k) (b.lane s k) (mask.lane s k)) ∧
    (∀ s t u : Shape, logic (a.recode s) (b.recode t) (mask.recode u) = logic a b mask) ∧
    [~~~a, a &&& b, a ||| b, a ^^^ b] = (logic a b mask).take 4 ∧
    [Instr.not.execute [.v128 a], (Instr.bitwise .and).execute [.v128 a, .v128 b],
      (Instr.bitwise .or).execute [.v128 a, .v128 b],
      (Instr.bitwise .xor).execute [.v128 a, .v128 b],
      (Instr.bitwise .andNot).execute [.v128 a, .v128 b],
      Instr.bitselect.execute [.v128 a, .v128 b, .v128 mask]] =
        (logic a b mask).map (fun v => .ok (.v128 v)) ∧
    ∃ r : BitVec 32, Instr.anyTrue.execute [.v128 a] = .ok (.i32 r) ∧ (r = 0#32 ∨ r = 1#32) ∧
      ∀ s : Shape, r = 1#32 ↔ ∃ k < s.lanes, a.lane s k ≠ 0#_ := by
  refine ⟨fun s k => map_lane_logic a b mask s, fun s t u => ?_, rfl, rfl,
    Instr.truth a.anyTrue, rfl, ?_, fun s => ?_⟩
  · rw [recode_eq, recode_eq, recode_eq]
  · cases a.anyTrue <;> decide
  · rw [truth_eq_one_iff, anyTrue_iff a s]

/-- The last float of a selection comes from the first vector where the mask is all ones. -/
theorem logic_ignores_shape_bitselect :
    ((filled 0xF0).bitselect (filled 0x0F) (ofPair 0 (BitVec.allOnes 64))).lane
      FloatShape.f32x4 3 = 0xF0F0F0F0#32 := by
  have hlanes := (logic_ignores_shape (filled 0xF0) (filled 0x0F)
    (ofPair 0 (BitVec.allOnes 64))).1 FloatShape.f32x4 3 (by decide)
  have hlast := Option.some.inj (congrArg (·[5]?) hlanes)
  exact hlast.trans (by decide)

end Vec

end Lanewise
