import Lanewise.Instr.Value
import Lanewise.Integer.Vector
import Lanewise.Float.Vector

/-!
# Instructions

An `Instr` is an operation together with its immediates. Most instructions come in families
over the shapes : a family is a constructor that takes a shape and an operation. Where a
shape lacks a member of a family, the constructor asks for a proof that the member is there
(`IntBinary.isEncoded`), and an extraction has a sign exactly if it widens a lane; so every
term of `Instr` is an instruction.

`Instr.operands` and `Instr.result` are the signature, `Instr.shape?` and
`Instr.laneImmediate?` what the checks of an execution look at.
-/

namespace Lanewise

/-! ## Families -/

/-- Bitwise operations of two vectors. -/
inductive BitwiseBinary where
  | and
  | or
  | xor
  | andNot
  deriving DecidableEq

namespace IntBinary

/-- The narrow shapes have saturating sums, differences and averages; all but the narrowest
have products; the widest has neither unsigned comparisons nor minima and maxima. -/
def isEncoded (op : IntBinary) (s : IntShape) : Bool :=
  match op with
  | compare (.lt .unsigned) | compare (.gt .unsigned) => s != .i64x2
  | compare (.le .unsigned) | compare (.ge .unsigned) => s != .i64x2
  | compare _ | add | sub => true
  | mul => s != .i8x16
  | min _ | max _ => s != .i64x2
  | addSat _ | subSat _ | avgr => s.isNarrow

end IntBinary

/-- Lanes narrower than their scalar. -/
def Shape.isNarrow : Shape → Bool
  | .int s => s.isNarrow
  | .float _ => false

/-- An operation with its immediates. -/
inductive Instr where
  | not
  | bitwise (op : BitwiseBinary)
  | bitselect
  | anyTrue
  | splat (s : Shape)
  | extractLane (s : Shape) (sign : Option Signedness) (lane : UInt8)
      (widened : sign.isSome = s.isNarrow)
  | replaceLane (s : Shape) (lane : UInt8)
  | swizzle
  | shuffle (lanes : Vector UInt8 16)
  | intUnary (s : IntShape) (op : IntUnary)
  | intBinary (s : IntShape) (op : IntBinary) (encoded : op.isEncoded s)
  | allTrue (s : IntShape)
  | bitmask (s : IntShape)
  | shift (s : IntShape) (op : Shift)
  | floatUnary (s : FloatShape) (op : FloatUnary)
  | floatBinary (s : FloatShape) (op : FloatBinary)
  deriving DecidableEq

namespace Instr

/-! ## Signatures -/

/-- The types of the operands, first operand first. -/
@[reducible] def operands : Instr → List ValueType
  | not => [.v128]
  | bitwise _ => [.v128, .v128]
  | bitselect => [.v128, .v128, .v128]
  | anyTrue => [.v128]
  | splat s => [s.scalar]
  | extractLane _ _ _ _ => [.v128]
  | replaceLane s _ => [.v128, s.scalar]
  | swizzle => [.v128, .v128]
  | shuffle _ => [.v128, .v128]
  | intUnary _ _ => [.v128]
  | intBinary _ _ _ => [.v128, .v128]
  | allTrue _ => [.v128]
  | bitmask _ => [.v128]
  | shift _ _ => [.v128, .i32]
  | floatUnary _ _ => [.v128]
  | floatBinary _ _ => [.v128, .v128]

/-- The type of the result. -/
@[reducible] def result : Instr → ValueType
  | anyTrue => .i32
  | extractLane s _ _ _ => s.scalar
  | allTrue _ => .i32
  | bitmask _ => .i32
  | _ => .v128

/-- The number of operands that an execution asks for. -/
def operandCount : Instr → Nat
  | splat _ | extractLane _ _ _ _ => 1
  | not | anyTrue | intUnary _ _ | allTrue _ | bitmask _ | floatUnary _ _ => 1
  | bitselect => 3
  | _ => 2

/-- An instruction asks for as many operands as its signature has. -/
theorem length_operands (i : Instr) : i.operands.length = i.operandCount := by
  cases i <;> rfl

/-- The shape that the vectors are read in, unless they are read as bits. -/
def shape? : Instr → Option Shape
  | not | bitwise _ | bitselect | anyTrue => none
  | splat s => some s
  | extractLane s _ _ _ => some s
  | replaceLane s _ => some s
  | swizzle | shuffle _ => some IntShape.i8x16
  | intUnary s _ => some s
  | intBinary s _ _ => some s
  | allTrue s => some s
  | bitmask s => some s
  | shift s _ => some s
  | floatUnary s _ => some s
  | floatBinary s _ => some s

/-- The lane that an instruction reads or writes. -/
def laneImmediate? : Instr → Option UInt8
  | extractLane _ _ lane _ => some lane
  | replaceLane _ lane => some lane
  | _ => none

end Instr

end Lanewise
