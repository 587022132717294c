import Lanewise.Instr.Basic

/-!
# Names of instructions

The name of an instruction is the name of its shape followed by the name of its operation,
as in `I8x16AddSatS`. `Instr.debug` adds the immediates.
-/

namespace Lanewise

/-! ## Parts of a name -/

/-- The name of a shape with a capital letter. -/
def Shape.tag (s : Shape) : String :=
  s.name.capitalize

def Signedness.tag : Signedness → String
  | signed => "S"
  | unsigned => "U"

def BitwiseBinary.tag : BitwiseBinary → String
  | and => "And"
  | or => "Or"
  | xor => "Xor"
  | andNot => "AndNot"

def IntCompare.tag : IntCompare → String
  | eq => "Eq"
  | ne => "Ne"
  | lt sign => "Lt" ++ sign.tag
  | gt sign => "Gt" ++ sign.tag
  | le sign => "Le" ++ sign.tag
  | ge sign => "Ge" ++ sign.tag

def IntUnary.tag : IntUnary → String
  | abs => "Abs"
  | neg => "Neg"

def IntBinary.tag : IntBinary → String
  | compare relation => relation.tag
  | add => "Add"
  | sub => "Sub"
  | mul => "Mul"
  | min sign => "Min" ++ sign.tag
  | max sign => "Max" ++ sign.tag
  | addSat sign => "AddSat" ++ sign.tag
  | subSat sign => "SubSat" ++ sign.tag
  | avgr => "AvgrU"

def Shift.tag : Shift → String
  | left => "Shl"
  | right sign => "Shr" ++ sign.tag

def FloatCompare.tag : FloatCompare → String
  | eq => "Eq"
  | ne => "Ne"
  | lt => "Lt"
  | gt => "Gt"
  | le => "Le"
  | ge => "Ge"

def FloatUnary.tag : FloatUnary → String
  | abs => "Abs"
  | neg => "Neg"
  | sqrt => "Sqrt"
  | integral .ceil => "Ceil"
  | integral .floor => "Floor"
  | integral .trunc => "Trunc"
  | integral .nearest => "Nearest"

def FloatBinary.tag : FloatBinary → String
  | compare relation => relation.tag
  | add => "Add"
  | sub => "Sub"
  | mul => "Mul"
  | div => "Div"
  | min => "Min"
  | max => "Max"
  | pmin => "Pmin"
  | pmax => "Pmax"

/-! ## Names -/

namespace Instr

/-- The name without immediates. -/
def name : Instr → String
  | not => "V128Not"
  | bitwise op => "V128" ++ op.tag
  | bitselect => "V128Bitselect"
  | anyTrue => "V128AnyTrue"
  | splat s => s.tag ++ "Splat"
  | extractLane s sign _ _ => s.tag ++ "ExtractLane" ++ (sign.map Signedness.tag).getD ""
  | replaceLane s _ => s.tag ++ "ReplaceLane"
  | swizzle => "I8x16Swizzle"
  | shuffle _ => "I8x16Shuffle"
  | intUnary s op => (s : Shape).tag ++ op.tag
  | intBinary s op _ => (s : Shape).tag ++ op.tag
  | allTrue s => (s : Shape).tag ++ "AllTrue"
  | bitmask s => (s : Shape).tag ++ "Bitmask"
  | shift s op => (s : Shape).tag ++ op.tag
  | floatUnary s op => (s : Shape).tag ++ op.tag
  | floatBinary s op => (s : Shape).tag ++ op.tag

/-- The immediates, in braces. -/
def immediateText : Instr → String
  | shuffle lanes =>
      " \x7b lanes: [" ++ String.intercalate ", " (lanes.toList.map fun i => toString i.toNat) ++
        "] \x7d"
  | i =>
      match i.laneImmediate? with
      | some lane => " \x7b lane: " ++ toString lane.toNat ++ " \x7d"
      | none => ""

/-- The name and the immediates. -/
def debug (i : Instr) : String :=
  i.name ++ i.immediateText

end Instr

end Lanewise
