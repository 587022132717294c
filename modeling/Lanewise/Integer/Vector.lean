import Lanewise.Vec.Basic
import Lanewise.Integer.Lane

/-!
# Integer vectors

The lane operations of an integer shape, applied to every lane. The operations come in
families : an `IntUnary` maps lanes, an `IntBinary` combines two lanes, a `Shift` moves the
bits of every lane by one count. `IntShape.unary`, `IntShape.binary` and `IntShape.shift`
apply a member of a family to vectors; every member exists for every shape.
-/

namespace Lanewise

/-! ## Families -/

/-- A relation of two lanes. -/
inductive IntCompare where
  | eq
  | ne
  | lt (sign : Signedness)
  | gt (sign : Signedness)
  | le (sign : Signedness)
  | ge (sign : Signedness)
  deriving DecidableEq

inductive IntUnary where
  | abs
  | neg
  deriving DecidableEq

inductive IntBinary where
  | compare (relation : IntCompare)
  | add
  | sub
  | mul
  | min (sign : Signedness)
  | max (sign : Signedness)
  | addSat (sign : Signedness)
  | subSat (sign : Signedness)
  | avgr
  deriving DecidableEq

inductive Shift where
  | left
  | right (sign : Signedness)
  deriving DecidableEq

namespace IntCompare

def holds {w : Nat} : IntCompare → BitVec w → BitVec w → Bool
  | eq, a, b => a == b
  | ne, a, b => a != b
  | lt sign, a, b => sign.lt a b
  | gt sign, a, b => sign.lt b a
  | le sign, a, b => sign.le a b
  | ge sign, a, b => sign.le b a

end IntCompare

namespace IntUnary

def lane {w : Nat} : IntUnary → BitVec w → BitVec w
  | abs, a => a.abs
  | neg, a => -a

end IntUnary

namespace IntBinary

def lane {w : Nat} : IntBinary → BitVec w → BitVec w → BitVec w
  | compare relation, a, b => Vec.mask (relation.holds a b)
  | add, a, b => a + b
  | sub, a, b => a - b
  | mul, a, b => a * b
  | min sign, a, b => sign.min a b
  | max sign, a, b => sign.max a b
  | addSat sign, a, b => Lane.addSat sign a b
  | subSat sign, a, b => Lane.subSat sign a b
  | avgr, a, b => Lane.avgr a b

end IntBinary

namespace Shift

def lane {w : Nat} : Shift → BitVec w → BitVec 32 → BitVec w
  | left, a, count => Lane.shl a count
  | right sign, a, count => Lane.shr sign a count

end Shift

/-! ## Lane by lane -/

namespace IntShape

def unary (s : IntShape) (op : IntUnary) (a : Vec) : Vec :=
  Vec.map s op.lane a

def binary (s : IntShape) (op : IntBinary) (a b : Vec) : Vec :=
  Vec.zipWith s op.lane a b

def shift (s : IntShape) (op : Shift) (a : Vec) (count : BitVec 32) : Vec :=
  Vec.map s (op.lane · count) a

theorem lane_unary (s : IntShape) (op : IntUnary) (a : Vec) (k : Nat) (h : k < s.lanes) :
    (s.unary op a).lane s k = op.lane (a.lane s k) :=
  Vec.lane_map s _ a k h

theorem lane_binary (s : IntShape) (op : IntBinary) (a b : Vec) (k : Nat) (h : k < s.lanes) :
    (s.binary op a b).lane s k = op.lane (a.lane s k) (b.lane s k) :=
  Vec.lane_zipWith s _ a b k h

theorem lane_shift (s : IntShape) (op : Shift) (a : Vec) (count : BitVec 32) (k : Nat)
    (h : k < s.lanes) : (s.shift op a count).lane s k = op.lane (a.lane s k) count :=
  Vec.lane_map s _ a k h

/-! ## Reductions -/

/-- Some lane is nonzero. -/
def anyTrue (s : IntShape) (v : Vec) : Bool :=
  (v.lanes s).toList.any (· != 0#_)

/-- Every lane is nonzero. -/
def allTrue (s : IntShape) (v : Vec) : Bool :=
  (v.lanes s).toList.all (· != 0#_)

/-- The word with one more bit set. -/
def setBit (bits : BitVec 32) (k : Nat) : BitVec 32 :=
  bits ||| 1#32 <<< k

/-- The number whose bit `k` is the sign bit of lane `k` : the numbers of the negative lanes are
the bits that are set, one after the other. -/
def bitmask (s : IntShape) (v : Vec) : Nat :=
  (((v.lanes s).toList.zipIdx.filter (·.1.msb)).foldl (fun bits x => setBit bits x.2) 0#32).toNat

theorem getLsbD_setBit (bits : BitVec 32) (k : Nat) {i : Nat} (h : i < 32) :
    (setBit bits k).getLsbD i = (bits.getLsbD i || decide (k = i)) := by
  rw [setBit, BitVec.getLsbD_or, BitVec.getLsbD_shiftLeft, BitVec.getLsbD_one]
  congr 1
  rw [Bool.eq_iff_iff]
  simp
  omega

theorem getLsbD_foldl_setBit {α : Type} (l : List (α × Nat)) (bits : BitVec 32) {i : Nat}
    (h : i < 32) : (l.foldl (fun bits x => setBit bits x.2) bits).getLsbD i =
      (bits.getLsbD i || l.any (·.2 = i)) := by
  induction l generalizing bits with
  | nil => simp
  | cons x l ih => rw [List.foldl_cons, ih, getLsbD_setBit _ _ h, List.any_cons, Bool.or_assoc]

theorem testBit_bitmask (s : IntShape) (v : Vec) (i : Nat) :
    (s.bitmask v).testBit i = (decide (i < s.lanes) && (v.lane s i).msb) := by
  have hlanes : s.lanes ≤ 32 := by cases s <;> decide
  by_cases h : i < 32
  · rw [bitmask, BitVec.testBit_toNat, getLsbD_foldl_setBit _ _ h, BitVec.getLsbD_zero,
      Bool.false_or, Bool.eq_iff_iff]
    simp only [List.any_eq_true, List.mem_filter, List.mem_zipIdx_iff_getElem?, Prod.exists,
      decide_eq_true_eq, Bool.and_eq_true]
    constructor
    · rintro ⟨x, k, ⟨hx, hsign⟩, rfl⟩
      obtain ⟨hk, rfl⟩ := Vec.getElem?_toList_lanes.1 hx
      exact ⟨hk, hsign⟩
    · rintro ⟨hi, hsign⟩
      exact ⟨_, i, ⟨Vec.getElem?_toList_lanes.2 ⟨hi, rfl⟩, hsign⟩, rfl⟩
  · have hout : ¬i < s.lanes := by omega
    rw [bitmask, BitVec.testBit_toNat, BitVec.getLsbD_of_ge _ _ (Nat.le_of_not_lt h),
      decide_eq_false hout, Bool.false_and]

end IntShape

end Lanewise
