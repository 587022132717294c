import Lanewise.Power

/-!
# Binary floating-point formats

A `Format` is a number of mantissa bits and a number of exponent bits, each at least one.
Values of a format are kept as bit patterns throughout the library, since the payload of a
NaN and the sign of a zero matter; the fields of a pattern are numbers read off it.

* `Format.units` is the magnitude of a pattern as a multiple of the least subnormal
  `2 ^ unitExponent`. Every finite value is such a multiple, so float arithmetic is exact
  integer arithmetic followed by one rounding.
* `Format.value?` is the signed multiple, and `none` for a NaN. An infinity counts as the
  power of two that follows the largest finite value.
-/

namespace Lanewise

/-- The layout of a binary interchange format. -/
structure Format where
  mantissaBits : Nat
  exponentBits : Nat
  mantissa_pos : 0 < mantissaBits := by decide
  exponent_pos : 0 < exponentBits := by decide
  deriving DecidableEq

namespace Format

/-- Single precision. -/
@[reducible] def binary32 : Format where
  mantissaBits := 23
  exponentBits := 8

/-- Double precision. -/
@[reducible] def binary64 : Format where
  mantissaBits := 52
  exponentBits := 11

/-- A sign bit, the exponent field and the mantissa. -/
abbrev width (fmt : Format) : Nat :=
  1 + fmt.exponentBits + fmt.mantissaBits

/-- The bits of a value of the format. -/
abbrev Pattern (fmt : Format) : Type :=
  BitVec fmt.width

variable (fmt : Format)

/-! ## Exponents -/

def bias : Nat :=
  2 ^ (fmt.exponentBits - 1) - 1

/-- The exponent of the least normal value. -/
def minExponent : Int :=
  1 - fmt.bias

/-- The exponent of the least subnormal. -/
def unitExponent : Int :=
  fmt.minExponent - fmt.mantissaBits

/-- The exponent field of infinities and NaNs, all ones. -/
def topExponent : Nat :=
  2 ^ fmt.exponentBits - 1

/-- The magnitude bits of an infinity. -/
def infinityBits : Nat :=
  fmt.topExponent * 2 ^ fmt.mantissaBits

/-! ## Masks -/

def mantissaMask : fmt.Pattern :=
  BitVec.ofNat _ (2 ^ fmt.mantissaBits - 1)

def exponentMask : fmt.Pattern :=
  BitVec.ofNat _ fmt.infinityBits

def signBit : fmt.Pattern :=
  BitVec.ofNat _ (2 ^ (fmt.exponentBits + fmt.mantissaBits))

/-- The first mantissa bit, set on quiet NaNs. -/
def quietBit : fmt.Pattern :=
  BitVec.ofNat _ (2 ^ (fmt.mantissaBits - 1))

/-- The NaN that stands for an invalid operation : positive, with the quiet bit alone. -/
def canonicalNaN : fmt.Pattern :=
  fmt.exponentMask ||| fmt.quietBit

/-! ## Building a pattern -/

/-- A sign in front of magnitude bits. -/
def pattern (negative : Bool) (magnitude : Nat) : fmt.Pattern :=
  (if negative then fmt.signBit else 0#_) ||| BitVec.ofNat _ magnitude

def zero (negative : Bool) : fmt.Pattern :=
  fmt.pattern negative 0

def infinity (negative : Bool) : fmt.Pattern :=
  fmt.pattern negative fmt.infinityBits

/-! ## Reading a pattern -/

variable {fmt}

def isNegative (x : fmt.Pattern) : Bool :=
  x.msb

def magnitude (x : fmt.Pattern) : Nat :=
  x.toNat % 2 ^ (fmt.exponentBits + fmt.mantissaBits)

def mantissa (x : fmt.Pattern) : Nat :=
  x.toNat % 2 ^ fmt.mantissaBits

def exponent (x : fmt.Pattern) : Nat :=
  x.toNat / 2 ^ fmt.mantissaBits % 2 ^ fmt.exponentBits

def isNaN (x : fmt.Pattern) : Bool :=
  exponent x = fmt.topExponent ∧ mantissa x ≠ 0

def isInfinite (x : fmt.Pattern) : Bool :=
  exponent x = fmt.topExponent ∧ mantissa x = 0

/-- The magnitude in units of the least subnormal. Normal values carry a hidden leading bit
and their unit doubles with each step of the exponent field. -/
def units (x : fmt.Pattern) : Nat :=
  if exponent x = 0 then mantissa x
  else (2 ^ fmt.mantissaBits + mantissa x) * 2 ^ (exponent x - 1)

/-- The signed multiple of the least subnormal that a pattern stands for. -/
def value? (x : fmt.Pattern) : Option Int :=
  if isNaN x then none
  else some (if isNegative x then -(units x : Int) else units x)

end Format

end Lanewise
