import Lanewise.Float.Round
import Lanewise.Numeral
import Lanewise.Literal.Split

/-!
# Decimals

A `Decimal` is a natural number times a power of ten. `Decimal.ofChars?` reads one from plain
text without separators, and `Decimal.round` takes it to the nearest value of a format, by
one exact rounding of a fraction.
-/

namespace Lanewise

/-- The number `digits * 10 ^ exponent`. -/
structure Decimal where
  digits : Nat
  exponent : Int
  deriving DecidableEq

namespace Decimal

/-! ## Rounding -/

/-- The magnitude bits of the nearest value, or `none` if it is not finite. Two cases are
settled by the size of the number alone, which keeps the powers of ten small : a power of ten
above every value of the format, and a number below half of the least subnormal. -/
def round (fmt : Format) (d : Decimal) : Option Nat :=
  if d.digits = 0 then some 0
  else if (fmt.bias + 1 : Int) ≤ d.exponent then none
  else if d.digits.log2 + 1 + d.exponent ≤ fmt.unitExponent - 1 then some 0
  else fmt.roundRatio (d.digits * 10 ^ d.exponent.toNat) (10 ^ (-d.exponent).toNat)

/-! ## Reading -/

def isExponentMark (c : Char) : Bool :=
  c == 'e' || c == 'E'

/-- The number of a nonempty run of decimal digits and nothing else. -/
def readNat? (text : List Char) : Option Nat :=
  if !text.isEmpty && text.all fun c => (Numeral.digit? 10 c).isSome then
    some (Numeral.value 10 text)
  else none

/-- A power of ten : a run of digits with an optional sign. -/
def readPower? (text : List Char) : Option Int :=
  match Literal.splitSign text with
  | (some .minus, digits) => (readNat? digits).map fun n => -(n : Int)
  | (_, digits) => (readNat? digits).map fun n => (n : Int)

/-- Digits, an optional point with more digits, an optional power of ten. -/
def ofChars? (text : List Char) : Option Decimal := do
  let (mantissa, power?) := Literal.cut isExponentMark text
  let (whole, fraction?) := Literal.cutPoint mantissa
  let fraction := fraction?.getD []
  guard (!whole.isEmpty)
  let digits ← readNat? (whole ++ fraction)
  let power ←
    match power? with
    | none => pure 0
    | some written => readPower? written
  return ⟨digits, power - fraction.length⟩

end Decimal

end Lanewise
