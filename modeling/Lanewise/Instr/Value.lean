import Lanewise.Integer.Lane
import Lanewise.Vec.Basic

/-!
# Values

The operands and results of instructions : vectors, and scalars of the four scalar types.
A `ValueType` has a `Carrier`, the type of its values; `Value.as?` looks at a value as one
of a given type.

Every shape has a scalar type. Lanes narrower than their scalar are cut from it when they
are written and widened to it when they are read.
-/

namespace Lanewise

inductive ValueType where
  | v128
  | i32
  | i64
  | f32
  | f64
  deriving DecidableEq

namespace ValueType

def name : ValueType → String
  | v128 => "v128"
  | i32 => "i32"
  | i64 => "i64"
  | f32 => "f32"
  | f64 => "f64"

/-- The values of a type. Floats are bit patterns. -/
@[reducible] def Carrier : ValueType → Type
  | v128 => Vec
  | i32 => BitVec 32
  | i64 => BitVec 64
  | f32 => Format.binary32.Pattern
  | f64 => Format.binary64.Pattern

end ValueType

/-- A vector or a scalar. -/
inductive Value where
  | v128 (v : Vec)
  | i32 (x : BitVec 32)
  | i64 (x : BitVec 64)
  | f32 (x : Format.binary32.Pattern)
  | f64 (x : Format.binary64.Pattern)
  deriving DecidableEq

namespace Value

def type : Value → ValueType
  | v128 _ => .v128
  | i32 _ => .i32
  | i64 _ => .i64
  | f32 _ => .f32
  | f64 _ => .f64

/-- A value of a known type. -/
def of : (t : ValueType) → t.Carrier → Value
  | .v128, v => v128 v
  | .i32, x => i32 x
  | .i64, x => i64 x
  | .f32, x => f32 x
  | .f64, x => f64 x

/-- The value, if it is of the given type. -/
def as? : (t : ValueType) → Value → Option t.Carrier
  | .v128, v128 v => some v
  | .i32, i32 x => some x
  | .i64, i64 x => some x
  | .f32, f32 x => some x
  | .f64, f64 x => some x
  | _, _ => none

theorem type_of (t : ValueType) (x : t.Carrier) : (of t x).type = t := by
  cases t <;> rfl

theorem as?_of (t : ValueType) (x : t.Carrier) : as? t (of t x) = some x := by
  cases t <;> rfl

/-- A value is of a type exactly if it can be looked at as one. -/
theorem isSome_as?_iff (t : ValueType) (v : Value) : (as? t v).isSome ↔ v.type = t := by
  cases t <;> cases v <;> simp [as?, type]

end Value

/-! ## Scalars of a shape -/

namespace Shape

/-- The scalar type that a lane is read into and written from. -/
@[reducible] def scalar : Shape → ValueType
  | int .i8x16 => .i32
  | int .i16x8 => .i32
  | int .i32x4 => .i32
  | int .i64x2 => .i64
  | float .f32x4 => .f32
  | float .f64x2 => .f64

/-- The low bits of a scalar, as a lane. -/
def laneOfScalar : (s : Shape) → s.scalar.Carrier → BitVec s.laneBits
  | int .i8x16, x => x.setWidth 8
  | int .i16x8, x => x.setWidth 16
  | int .i32x4, x => x
  | int .i64x2, x => x
  | float .f32x4, x => x
  | float .f64x2, x => x

/-- A lane as wide as its scalar. -/
def scalarOfLane : (s : Shape) → Signedness → BitVec s.laneBits → s.scalar.Carrier
  | int .i8x16, sign, x => sign.extend 32 x
  | int .i16x8, sign, x => sign.extend 32 x
  | int .i32x4, _, x => x
  | int .i64x2, _, x => x
  | float .f32x4, _, x => x
  | float .f64x2, _, x => x

end Shape

end Lanewise
