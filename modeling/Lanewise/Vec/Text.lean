import Lanewise.Vec.Basic
import Lanewise.Literal.Integer
import Lanewise.Literal.Float
import Lanewise.Float.Text

/-!
# Vectors as text

A vector is written in a shape as the name of the shape and a word for each lane : an
integer lane as `0x` and all its hexadecimal digits, a float lane as the text of a float.
Literals, one for each lane, are read back into a vector; the first that is refused decides
the refusal.
-/

namespace Lanewise

/-! ## Lanes -/

namespace Shape

/-- The bits of a lane that a literal stands for. -/
def readLane : (s : Shape) → String → Except LiteralError (BitVec s.laneBits)
  | int s, text => Literal.readInteger s.laneBits text
  | float s, text => Literal.readFloat s.format text

/-- The hexadecimal digits of a word, leading zeros included. -/
def hexDigits {w : Nat} (x : BitVec w) : List Char :=
  Numeral.fixed 16 (w / 4) x.toNat

def laneText : (s : Shape) → BitVec s.laneBits → String
  | int _, x => "0x" ++ String.ofList (hexDigits x)
  | float _, x => Format.text x

end Shape

namespace Vec

/-! ## Writing -/

/-- The words of the lanes, lane 0 first. -/
def words (v : Vec) (s : Shape) : List String :=
  (v.lanes s).toList.map s.laneText

/-- The name of the shape and the words of the lanes, a space before each word. -/
def text (v : Vec) (s : Shape) : String :=
  String.intercalate " " (s.name :: v.words s)

/-- The text of a vector whose shape is not known. -/
def display (v : Vec) : String :=
  v.text IntShape.i32x4

/-- The hexadecimal digits of the 128 bits. -/
def hex (v : Vec) : String :=
  String.ofList (Shape.hexDigits v.bits)

/-- The hexadecimal digits, in the alternate form after a prefix. -/
def lowerHex (v : Vec) (alternate : Bool) : String :=
  (if alternate then "0x" else "") ++ v.hex

/-! ## Reading -/

/-- Why a list of literals is not a vector. -/
inductive TextError where
  | laneCount (expected actual : Nat)
  | lane (index : Nat) (reason : LiteralError)
  deriving DecidableEq

namespace TextError

def toError : TextError → Error
  | laneCount expected actual => (Cause.laneCount expected actual).toError
  | lane _ reason => reason.toError

end TextError

/-- The lanes that literals stand for, numbered from `index`. -/
def readLanes (s : Shape) (index : Nat) :
    List String → Except TextError (List (BitVec s.laneBits))
  | [] => .ok []
  | literal :: rest =>
      match s.readLane literal with
      | .error reason => .error (.lane index reason)
      | .ok x => (readLanes s (index + 1) rest).map (x :: ·)

/-- A vector from one literal for each lane. -/
def ofLiterals (s : Shape) (literals : List String) : Except TextError Vec :=
  if literals.length = s.lanes then
    (readLanes s 0 literals).map (ofWords s.laneBytes)
  else .error (.laneCount s.lanes literals.length)

end Vec

end Lanewise
