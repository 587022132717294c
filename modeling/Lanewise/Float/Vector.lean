import Lanewise.Vec.Basic
import Lanewise.Float.Lane

/-!
# Float vectors

The lane operations of a float shape, applied to every lane. A `FloatUnary` maps lanes, a
`FloatBinary` combines two lanes; comparisons fill a lane with ones or with zeros.
-/

namespace Lanewise

/-! ## Families -/

inductive FloatCompare where
  | eq
  | ne
  | lt
  | gt
  | le
  | ge
  deriving DecidableEq

inductive FloatUnary where
  | abs
  | neg
  | sqrt
  | integral (mode : Format.IntegralMode)
  deriving DecidableEq

inductive FloatBinary where
  | compare (relation : FloatCompare)
  | add
  | sub
  | mul
  | div
  | min
  | max
  | pmin
  | pmax
  deriving DecidableEq

namespace FloatCompare

def holds {fmt : Format} : FloatCompare → fmt.Pattern → fmt.Pattern → Bool
  | eq, x, y => Format.eq x y
  | ne, x, y => Format.ne x y
  | lt, x, y => Format.lt x y
  | gt, x, y => Format.gt x y
  | le, x, y => Format.le x y
  | ge, x, y => Format.ge x y

end FloatCompare

namespace FloatUnary

def lane {fmt : Format} : FloatUnary → fmt.Pattern → fmt.Pattern
  | abs, x => Format.abs x
  | neg, x => Format.neg x
  | sqrt, x => Format.sqrt x
  | integral mode, x => Format.integral mode x

end FloatUnary

namespace FloatBinary

def lane {fmt : Format} : FloatBinary → fmt.Pattern → fmt.Pattern → fmt.Pattern
  | compare relation, x, y => Vec.mask (relation.holds x y)
  | add, x, y => Format.add x y
  | sub, x, y => Format.sub x y
  | mul, x, y => Format.mul x y
  | div, x, y => Format.div x y
  | min, x, y => Format.min x y
  | max, x, y => Format.max x y
  | pmin, x, y => Format.pmin x y
  | pmax, x, y => Format.pmax x y

end FloatBinary

/-! ## Lane by lane -/

namespace FloatShape

def unary (s : FloatShape) (op : FloatUnary) (a : Vec) : Vec :=
  Vec.map s (@FloatUnary.lane s.format op) a

def binary (s : FloatShape) (op : FloatBinary) (a b : Vec) : Vec :=
  Vec.zipWith s (@FloatBinary.lane s.format op) a b

theorem lane_unary (s : FloatShape) (op : FloatUnary) (a : Vec) (k : Nat) (h : k < s.lanes) :
    (s.unary op a).lane s k = @FloatUnary.lane s.format op (a.lane s k) :=
  Vec.lane_map s _ a k h

theorem lane_binary (s : FloatShape) (op : FloatBinary) (a b : Vec) (k : Nat) (h : k < s.lanes) :
    (s.binary op a b).lane s k = @FloatBinary.lane s.format op (a.lane s k) (b.lane s k) :=
  Vec.lane_zipWith s _ a b k h

end FloatShape

end Lanewise
