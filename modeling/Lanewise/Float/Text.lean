import Lanewise.Float.Lane
import Lanewise.Decimal.Shortest
import Lanewise.Decimal.Positional

/-!
# Floats as text

A finite float is written as its shortest decimal, in positional notation; an infinity as
`inf`; a NaN as `nan:0x` and its payload. A set sign bit is a minus in front of any of them.
-/

namespace Lanewise

namespace Format

variable {fmt : Format}

/-- The text of the magnitude of a pattern. -/
def magnitudeText (x : fmt.Pattern) : List Char :=
  if isNaN x then "nan:0x".toList ++ Numeral.least 16 (mantissa x)
  else if isInfinite x then "inf".toList
  else if units x = 0 then ['0']
  else (Decimal.shortest fmt (magnitude x) (units x)).positional

def toChars (x : fmt.Pattern) : List Char :=
  if isNegative x then '-' :: magnitudeText x else magnitudeText x

def text (x : fmt.Pattern) : String :=
  String.ofList (toChars x)

end Format

end Lanewise
