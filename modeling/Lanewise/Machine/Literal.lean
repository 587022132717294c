import Lanewise.Literal.Float
import Lanewise.Literal.Integer
import Lanewise.Machine.Checked

/-!
# Literals in machine words

The readers of integer and float literals as a machine runs them. Numbers are words of 32, 64 or
128 bits, texts are cut at byte offsets, and each step is checked. Where `Literal` has a condition
on numbers of any size, the reader here has a clamp, a shift or a mask.
-/

namespace Lanewise

namespace Machine

open Literal (checkDigits checkOptionalDigits splitSign isHexExponentMark HexAccumulator)

/-! ## Digits -/

/-- Reads on from a value in a word of 128 bits. -/
def scanDigits (radix : Nat) : List Char → Nat → Bool → Except LiteralError Nat
  | [], value, afterDigit => if afterDigit then .ok value else .error .misplacedSeparator
  | c :: rest, value, afterDigit =>
      if c = '_' then
        if afterDigit then scanDigits radix rest value false else .error .misplacedSeparator
      else
        match Numeral.digit? radix c with
        | none => .error .unexpectedCharacter
        | some d =>
            match (product? 128 value radix).bind (sum? 128 · d) with
            | none => .error .integerOutOfRange
            | some value => scanDigits radix rest value true

def readDigits (radix : Nat) (text : List Char) : Except LiteralError Nat :=
  if text.isEmpty then .error .missingDigits else scanDigits radix text 0 false

/-! ## Parts of a float -/

/-- The integer part, the fraction and the exponent of a text. -/
def cutParts (isExponentMark : Char → Bool) (text : List Char) :
    Checked (List Char × Option (List Char) × Option (List Char)) := do
  let (mantissa, exponent?) ← cutAt isExponentMark text
  let (whole, fraction?) ← cutAt (· == '.') mantissa
  return (whole, fraction?, exponent?)

/-! ## Integers -/

def readMagnitude : List Char → Except LiteralError Nat
  | '0' :: 'x' :: hex => readDigits 16 hex
  | body => readDigits 10 body

/-- Whether a magnitude is within the range that its sign leaves. -/
def inRange (bits : Nat) (sign : Option Sign) (magnitude : Nat) : Checked Bool := do
  let half ← shiftLeft 128 1 (← sub bits 1)
  match sign with
  | some .minus => return magnitude ≤ half
  | some .plus => return magnitude < half
  | none => return magnitude ≤ (← lowMask 128 bits)

def readInteger (bits : Nat) (text : List Char) : Checked Nat := do
  let (sign, body) := splitSign text
  let magnitude ← refusing (readMagnitude body)
  if ← inRange bits sign magnitude then
    let mask ← lowMask 128 bits
    narrow 64 (if sign = some .minus then wrappingNeg 128 magnitude &&& mask else magnitude)
  else .error (.refused .integerOutOfRange)

/-! ## Masks of a format -/

variable (fmt : Format)

def mantissaMask : Checked Nat :=
  lowMask 64 fmt.mantissaBits

def exponentMask : Checked Nat := do
  shiftLeft 64 (← lowMask 64 fmt.exponentBits) fmt.mantissaBits

def signBit : Checked Nat := do
  shiftLeft 64 1 (← add 32 fmt.mantissaBits fmt.exponentBits)

def quietBit : Checked Nat := do
  shiftLeft 64 1 (← sub fmt.mantissaBits 1)

def canonicalNaN : Checked Nat := do
  return (← exponentMask fmt) ||| (← quietBit fmt)

def bias : Checked Int := do
  signed ((← signedShiftLeft 1 (← sub fmt.exponentBits 1)) - 1)

/-! ## Rounding -/

/-- The bits of a mantissa from `drop` on, the bits below, and the weight of the highest of these.
A `drop` of 128 or more leaves nothing above. -/
def splitBits (mantissa : Nat) (drop : Int) : Checked (Nat × Nat × Nat) := do
  if 128 ≤ drop then return (0, mantissa, ← shiftLeft 128 1 127)
  else
    let amount ← unsigned 32 drop
    let kept ← shiftRight 128 mantissa amount
    let mask ← lowMask 128 amount
    let half ← shiftLeft 128 1 (← sub amount 1)
    return (kept, mantissa &&& mask, half)

/-- A mantissa without its last `drop` bits, rounded; with a negative `drop` it gets zeros. -/
def dropBits (mantissa : Nat) (drop : Int) (sticky : Bool) : Checked Nat := do
  if drop ≤ 0 then
    shiftLeft 128 mantissa (← unsigned 32 (← signed (-drop)))
  else
    let (kept, rest, half) ← splitBits mantissa drop
    if half < rest ∨ rest = half ∧ (sticky ∨ kept &&& 1 = 1) then add 128 kept 1 else return kept

/-- A mantissa that was rounded up to one bit more loses that bit to the exponent. -/
def carry (precision : Int) (kept : Nat) (exponent : Int) : Checked (Nat × Int) := do
  if (← shiftRight 128 kept (← unsigned 32 precision)) = 0 then return (kept, exponent)
  else return (← shiftRight 128 kept 1, ← signed (exponent + 1))

/-- The magnitude bits of a normal number with its hidden bit, unless it is too large. -/
def assemble (kept : Nat) (exponent : Int) : Checked (Option Nat) := do
  let bias ← bias fmt
  if bias < exponent then return none
  else
    let field ← unsigned 64 (← signed (exponent + bias))
    let high ← shiftLeft 64 field fmt.mantissaBits
    return some (high ||| ((← narrow 64 kept) &&& (← mantissaMask fmt)))

/-- The number of bits that are kept of a number with a leading bit of the given weight. -/
def keptBits (leading : Int) : Checked Int := do
  let least ← signed (1 - (← bias fmt))
  let precision ← signed (fmt.mantissaBits + 1)
  if least ≤ leading then return precision
  else signed (precision - (← signed (least - leading)))

/-- The magnitude bits of a rounded mantissa, by the number of bits that were kept. With fewer than
a hidden bit and a mantissa they are the bits themselves. -/
def encode (keep : Int) (kept : Nat) (leading : Int) : Checked (Option Nat) := do
  let precision ← signed (fmt.mantissaBits + 1)
  let (kept, exponent) ←
    if keep = precision then carry precision kept leading else pure (kept, leading)
  if keep < precision then return some (← narrow 64 kept) else assemble fmt kept exponent

/-- The magnitude bits of `mantissa * 2 ^ exponent`, rounded. -/
def round (mantissa : Nat) (exponent : Int) (sticky : Bool) : Checked (Option Nat) := do
  if mantissa = 0 then return some 0
  else
    let last ← sub 127 (leadingZeros 128 mantissa)
    let leading ← signed (last + exponent)
    let keep ← keptBits fmt leading
    if keep < 0 then return some 0
    else
      let drop ← signed ((← signed (last + 1)) - keep)
      encode fmt keep (← dropBits mantissa drop sticky) leading

/-! ## Hexadecimal floats -/

/-- One more digit of the integer part or of the fraction. -/
def push (acc : HexAccumulator) (digit : Char × Bool) : Checked HexAccumulator :=
  match Numeral.digit? 16 digit.1 with
  | none => return acc
  | some d => do
      if (← shiftRight 128 acc.mantissa 120) = 0 then
        let mantissa ← shiftLeft 128 acc.mantissa 4
        let exponent ← if digit.2 then signed (acc.exponent - 4) else pure acc.exponent
        return ⟨mantissa ||| d, exponent, acc.sticky⟩
      else
        let exponent ← if digit.2 then pure acc.exponent else signed (acc.exponent + 4)
        return ⟨acc.mantissa, exponent, acc.sticky || d != 0⟩

def ofDigits (whole fraction : List Char) (exponent : Int) : Checked HexAccumulator :=
  (whole.map (·, false) ++ fraction.map (·, true)).foldlM push ⟨0, exponent, false⟩

/-- The greatest exponent, a positive word of 32 bits. -/
def greatestExponent : Int :=
  0x7FFFFFFF

/-- A number as a signed word, the greatest exponent where it is above it. -/
def clampExponent (value : Nat) : Int :=
  let word : Int := if value < 0x8000000000000000 then value else greatestExponent
  if word ≤ greatestExponent then word else greatestExponent

def readExponent (text : List Char) : Checked Int := do
  let (sign, digits) := splitSign text
  refusing (checkDigits 10 digits)
  let magnitude :=
    match readDigits 10 digits with
    | .ok value => clampExponent value
    | .error _ => greatestExponent
  if sign = some .minus then signed (-magnitude) else return magnitude

/-- The magnitude bits of a mantissa and an exponent, which must not be too large. -/
def roundDigits (whole fraction : List Char) (exponent : Int) : Checked Nat := do
  let acc ← ofDigits whole fraction exponent
  match ← round fmt acc.mantissa acc.exponent acc.sticky with
  | some bits => return bits
  | none => .error (.refused .floatOutOfRange)

def readHexFloat (text : List Char) : Checked Nat := do
  let (whole, fraction?, exponent?) ← cutParts isHexExponentMark text
  refusing (checkDigits 16 whole)
  refusing (checkOptionalDigits 16 fraction?)
  let exponent ←
    match exponent? with
    | none => pure 0
    | some written => readExponent written
  roundDigits fmt whole (fraction?.getD []) exponent

/-! ## Floats -/

def cleanDecimal (text : List Char) : Checked (List Char) := do
  let (whole, fraction?, exponent?) ← cutParts Decimal.isExponentMark text
  refusing (checkDigits 10 whole)
  refusing (checkOptionalDigits 10 fraction?)
  match exponent? with
  | none => pure ()
  | some written => refusing (checkDigits 10 (splitSign written).2)
  return text.filter (· != '_')

/-- A reader of decimals : a word, and whether the value is too large. -/
abbrev WordReader : Type :=
  List Char → Option (BitVec 64 × Bool)

def readDecimal (reader : WordReader) (text : List Char) : Checked Nat := do
  let cleaned ← cleanDecimal text
  match reader cleaned with
  | none => .error (.refused .malformedFloat)
  | some (_, true) => .error (.refused .floatOutOfRange)
  | some (word, false) => return word.toNat &&& complement 64 (← signBit fmt)

def readPayload (text : List Char) : Checked Nat := do
  let payload ← refusing (readDigits 16 text)
  if payload = 0 ∨ (← mantissaMask fmt) < payload then .error (.refused .payloadOutOfRange)
  else return (← exponentMask fmt) ||| (← narrow 64 payload)

def readFloatBody (reader : WordReader) : List Char → Checked Nat
  | ['i', 'n', 'f'] => exponentMask fmt
  | ['n', 'a', 'n'] => canonicalNaN fmt
  | 'n' :: 'a' :: 'n' :: ':' :: '0' :: 'x' :: payload => readPayload fmt payload
  | '0' :: 'x' :: hex => readHexFloat fmt hex
  | text => readDecimal fmt reader text

def signBits (sign : Option Sign) : Checked Nat :=
  if sign = some .minus then signBit fmt else return 0

def readFloat (reader : WordReader) (text : List Char) : Checked Nat := do
  let (sign, body) := splitSign text
  return (← signBits fmt sign) ||| (← readFloatBody fmt reader body)

end Machine

end Lanewise
