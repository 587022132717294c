import Lanewise.Literal.Digits
import Lanewise.Literal.Split

/-!
# Integer literals

`sign? 0x` and hexadecimal digits, or `sign?` and decimal digits. A literal without a sign
covers the unsigned range of the lane; one with a sign covers its half of the two's
complement range.
-/

namespace Lanewise

namespace Literal

/-- The magnitude after the sign. -/
def readMagnitude : List Char → Except LiteralError Nat
  | '0' :: 'x' :: hex => readDigits 16 hex
  | body => readDigits 10 body

/-- The range of a magnitude, by the sign in front of it. -/
def inRange (bits : Nat) : Option Sign → Nat → Bool
  | some .minus, m => m ≤ 2 ^ (bits - 1)
  | some .plus, m => m < 2 ^ (bits - 1)
  | none, m => m < 2 ^ bits

/-- The bits of a signed magnitude. -/
def twosComplement (bits : Nat) : Option Sign → Nat → BitVec bits
  | some .minus, m => -BitVec.ofNat bits m
  | _, m => BitVec.ofNat bits m

def readIntegerChars (bits : Nat) (text : List Char) : Except LiteralError (BitVec bits) := do
  let (sign, body) := splitSign text
  let magnitude ← readMagnitude body
  if inRange bits sign magnitude then .ok (twosComplement bits sign magnitude)
  else .error .integerOutOfRange

/-- The lane of `bits` bits that a text stands for. -/
def readInteger (bits : Nat) (text : String) : Except LiteralError (BitVec bits) :=
  readIntegerChars bits text.toList

end Literal

end Lanewise
