import Lanewise.Float.Round
import Lanewise.Literal.Digits
import Lanewise.Literal.Split

/-!
# Hexadecimal floats

`H ('.' H?)? (p sign? D)?` with `H` a hexadecimal and `D` a decimal digit run.

The digits are gathered into a mantissa of at most 124 bits and a sticky flag for the digits
that no longer fit. The exponent of two moves so that the mantissa and the flag enclose the
exact value : down by four for a fraction digit that is stored, up by four for an integer
digit that is not. Written exponents are cut off at `2 ^ 31 - 1`, which is beyond the powers of
two of a format with at most 31 exponent bits.
-/

namespace Lanewise

namespace Literal

/-- A number between `mantissa` and `mantissa + 1` times a power of two; exactly `mantissa`
times it if the flag is clear. -/
structure HexAccumulator where
  mantissa : Nat
  exponent : Int
  sticky : Bool

namespace HexAccumulator

/-- One more digit. Characters that are not digits are separators. -/
def push (isFraction : Bool) (acc : HexAccumulator) (c : Char) : HexAccumulator :=
  match Numeral.digit? 16 c with
  | none => acc
  | some d =>
      if acc.mantissa < 2 ^ (120 : Nat) then
        { mantissa := acc.mantissa * 16 + d
          exponent := if isFraction then acc.exponent - 4 else acc.exponent
          sticky := acc.sticky }
      else
        { mantissa := acc.mantissa
          exponent := if isFraction then acc.exponent else acc.exponent + 4
          sticky := acc.sticky || d != 0 }

/-- All digits of a mantissa, starting at the written exponent. -/
def ofDigits (whole fraction : List Char) (exponent : Int) : HexAccumulator :=
  fraction.foldl (push true) (whole.foldl (push false) ⟨0, exponent, false⟩)

def round (fmt : Format) (acc : HexAccumulator) : Option Nat :=
  fmt.round acc.mantissa acc.exponent acc.sticky

end HexAccumulator

/-- The greatest exponent that is told apart from larger ones. -/
def exponentLimit : Nat :=
  2 ^ (31 : Nat) - 1

/-- A written exponent of two, cut off at the limit. -/
def readExponent (text : List Char) : Except LiteralError Int := do
  let (sign, digits) := splitSign text
  checkDigits 10 digits
  let magnitude :=
    match readDigits 10 digits with
    | .ok value => Nat.min value exponentLimit
    | .error _ => exponentLimit
  return if sign = some .minus then -magnitude else magnitude

def isHexExponentMark (c : Char) : Bool :=
  c == 'p' || c == 'P'

/-- The magnitude bits of the part after `0x`. -/
def readHexFloat (fmt : Format) (text : List Char) : Except LiteralError Nat := do
  let (mantissa, exponent?) := cut isHexExponentMark text
  let (whole, fraction?) := cutPoint mantissa
  checkDigits 16 whole
  checkOptionalDigits 16 fraction?
  let exponent ←
    match exponent? with
    | none => pure 0
    | some written => readExponent written
  match (HexAccumulator.ofDigits whole (fraction?.getD []) exponent).round fmt with
  | some bits => .ok bits
  | none => .error .floatOutOfRange

end Literal

end Lanewise
