import Lanewise.Decimal.Basic
import Lanewise.Literal.HexFloat

/-!
# Float literals

After an optional sign : `inf`, `nan`, `nan:0x` and a payload, a hexadecimal float, or a
decimal `D ('.' D?)? (e sign? D)?`. The result is a pattern, so that the payload of a NaN is
kept. A finite literal that would round to an infinity is refused.

`Literal.readFloatWith` leaves decimals to a given reader, which gets the text without its
separators and returns a pattern and whether the value was too large. `Literal.readFloat`
uses the reader of `Decimal`.
-/

namespace Lanewise

namespace Literal

/-! ## Decimals -/

/-- Refuses a text that is not a decimal literal; drops the separators of one that is. -/
def cleanDecimal (text : List Char) : Except LiteralError (List Char) := do
  let (mantissa, exponent?) := cut Decimal.isExponentMark text
  let (whole, fraction?) := cutPoint mantissa
  checkDigits 10 whole
  checkOptionalDigits 10 fraction?
  match exponent? with
  | none => pure ()
  | some written => checkDigits 10 (splitSign written).2
  return text.filter (· != '_')

/-- A reader of decimals without separators : `none` if it cannot read the text, else a
pattern and whether the value is too large for the format. -/
abbrev DecimalReader (fmt : Format) : Type :=
  List Char → Option (fmt.Pattern × Bool)

/-- The magnitude bits that a reader finds in a decimal literal. The sign bit is ignored. -/
def readDecimalWith {fmt : Format} (reader : DecimalReader fmt) (text : List Char) :
    Except LiteralError Nat := do
  let cleaned ← cleanDecimal text
  match reader cleaned with
  | none => .error .malformedFloat
  | some (_, true) => .error .floatOutOfRange
  | some (x, false) => .ok (Format.magnitude x)

/-- The nearest value of the format. -/
def nearestDecimal (fmt : Format) : DecimalReader fmt := fun text => do
  let d ← Decimal.ofChars? text
  match d.round fmt with
  | some bits => return (fmt.pattern false bits, false)
  | none => return (fmt.infinity false, true)

/-! ## NaNs -/

/-- The magnitude bits of a NaN with a written payload, which must not be zero. -/
def readPayload (fmt : Format) (text : List Char) : Except LiteralError Nat := do
  let payload ← readDigits 16 text
  if payload = 0 ∨ 2 ^ fmt.mantissaBits ≤ payload then .error .payloadOutOfRange
  else .ok (fmt.infinityBits + payload)

/-! ## Floats -/

/-- The magnitude bits of a literal after its sign. -/
def readFloatBody {fmt : Format} (reader : DecimalReader fmt) :
    List Char → Except LiteralError Nat
  | ['i', 'n', 'f'] => .ok fmt.infinityBits
  | ['n', 'a', 'n'] => .ok (fmt.infinityBits + 2 ^ (fmt.mantissaBits - 1))
  | 'n' :: 'a' :: 'n' :: ':' :: '0' :: 'x' :: payload => readPayload fmt payload
  | '0' :: 'x' :: hex => readHexFloat fmt hex
  | text => readDecimalWith reader text

def readFloatChars {fmt : Format} (reader : DecimalReader fmt) (text : List Char) :
    Except LiteralError fmt.Pattern := do
  let (sign, body) := splitSign text
  let bits ← readFloatBody reader body
  return fmt.pattern (sign = some .minus) bits

/-- The pattern of a literal, with decimals left to a reader. -/
def readFloatWith (fmt : Format) (reader : DecimalReader fmt) (text : String) :
    Except LiteralError fmt.Pattern :=
  readFloatChars reader text.toList

/-- The pattern of a literal. -/
def readFloat (fmt : Format) (text : String) : Except LiteralError fmt.Pattern :=
  readFloatWith fmt (nearestDecimal fmt) text

end Literal

end Lanewise
