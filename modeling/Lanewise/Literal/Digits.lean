import Lanewise.Numeral
import Lanewise.Power
import Lanewise.Literal.Error

/-!
# Digit runs

A digit run is a nonempty run of digits in which single separators `_` may stand between
digits. `Literal.readDigits` reads the number of a run that must fit 128 bits, and gives up
at the first digit that makes it too large. `Literal.checkDigits` accepts runs of any length
and says only whether the text is a run.
-/

namespace Lanewise

namespace Literal

/-! ## Numbers of at most 128 bits -/

/-- Reads on from a value; `afterDigit` says that the last character was a digit. -/
def scanDigits (radix : Nat) : List Char → Nat → Bool → Except LiteralError Nat
  | [], value, afterDigit => if afterDigit then .ok value else .error .misplacedSeparator
  | c :: rest, value, afterDigit =>
      if c = '_' then
        if afterDigit then scanDigits radix rest value false else .error .misplacedSeparator
      else
        match Numeral.digit? radix c with
        | none => .error .unexpectedCharacter
        | some d =>
            if value * radix + d < 2 ^ (128 : Nat) then
              scanDigits radix rest (value * radix + d) true
            else .error .integerOutOfRange

/-- The number of a digit run below `2 ^ 128`. -/
def readDigits (radix : Nat) (text : List Char) : Except LiteralError Nat :=
  if text.isEmpty then .error .missingDigits else scanDigits radix text 0 false

/-! ## Runs of any length -/

def scanRun (radix : Nat) : List Char → Bool → Except LiteralError Unit
  | [], afterDigit => if afterDigit then .ok () else .error .misplacedSeparator
  | c :: rest, afterDigit =>
      if c = '_' then
        if afterDigit then scanRun radix rest false else .error .misplacedSeparator
      else if (Numeral.digit? radix c).isSome then scanRun radix rest true
      else .error .unexpectedCharacter

/-- Refuses a text that is not a digit run. -/
def checkDigits (radix : Nat) (text : List Char) : Except LiteralError Unit :=
  if text.isEmpty then .error .missingDigits else scanRun radix text false

/-- A part that may be left out or left empty. -/
def checkOptionalDigits (radix : Nat) : Option (List Char) → Except LiteralError Unit
  | none => .ok ()
  | some text => if text.isEmpty then .ok () else checkDigits radix text

end Literal

end Lanewise
