import Lanewise.Float.Round

/-!
# Exact float arithmetic

The operations of IEEE 754 on patterns, before the choice of a NaN. A result is `none` where
an operand is a NaN or the operation is invalid : infinities that cancel, zero times an
infinity, zero by zero, infinity by infinity, the root of a negative number.

A finite operand is `units` times the least subnormal, so sums and products are integers and
quotients are fractions of integers. Each operation computes that number exactly and rounds
it once.
-/

namespace Lanewise

/-! ## Data -/

/-- What a pattern stands for. A finite datum counts units of the least subnormal. -/
inductive Datum where
  | nan
  | infinite (negative : Bool)
  | finite (negative : Bool) (units : Nat)
  deriving DecidableEq

namespace Datum

/-- The integer that a sign and a magnitude make. -/
def signed (negative : Bool) (units : Nat) : Int :=
  if negative then -units else units

end Datum

namespace Format

variable {fmt : Format}

/-- The datum of a pattern. -/
def datum (x : fmt.Pattern) : Datum :=
  if isNaN x then .nan
  else if isInfinite x then .infinite (isNegative x)
  else .finite (isNegative x) (units x)

/-! ## Sums and differences -/

/-- The sum of two finite data. An exact zero is negative only if both operands are. -/
def addFinite (fmt : Format) (a : Bool) (m : Nat) (b : Bool) (n : Nat) : fmt.Pattern :=
  let sum := Datum.signed a m + Datum.signed b n
  if sum = 0 then fmt.zero (a && b)
  else fmt.roundSigned (sum < 0) (fmt.round sum.natAbs fmt.unitExponent false)

def sum? (x y : fmt.Pattern) : Option fmt.Pattern :=
  match datum x, datum y with
  | .nan, _ => none
  | _, .nan => none
  | .infinite a, .infinite b => if a = b then some (fmt.infinity a) else none
  | .infinite a, .finite _ _ => some (fmt.infinity a)
  | .finite _ _, .infinite b => some (fmt.infinity b)
  | .finite a m, .finite b n => some (addFinite fmt a m b n)

def difference? (x y : fmt.Pattern) : Option fmt.Pattern :=
  match datum x, datum y with
  | .nan, _ => none
  | _, .nan => none
  | .infinite a, .infinite b => if a = b then none else some (fmt.infinity a)
  | .infinite a, .finite _ _ => some (fmt.infinity a)
  | .finite _ _, .infinite b => some (fmt.infinity !b)
  | .finite a m, .finite b n => some (addFinite fmt a m (!b) n)

/-! ## Products and quotients -/

def product? (x y : fmt.Pattern) : Option fmt.Pattern :=
  match datum x, datum y with
  | .nan, _ => none
  | _, .nan => none
  | .infinite a, .infinite b => some (fmt.infinity (a ^^ b))
  | .infinite a, .finite b n => if n = 0 then none else some (fmt.infinity (a ^^ b))
  | .finite a m, .infinite b => if m = 0 then none else some (fmt.infinity (a ^^ b))
  | .finite a m, .finite b n =>
      some (fmt.roundSigned (a ^^ b) (fmt.round (m * n) (2 * fmt.unitExponent) false))

def quotient? (x y : fmt.Pattern) : Option fmt.Pattern :=
  match datum x, datum y with
  | .nan, _ => none
  | _, .nan => none
  | .infinite _, .infinite _ => none
  | .infinite a, .finite b _ => some (fmt.infinity (a ^^ b))
  | .finite a _, .infinite b => some (fmt.zero (a ^^ b))
  | .finite a m, .finite b n =>
      if n = 0 then (if m = 0 then none else some (fmt.infinity (a ^^ b)))
      else some (fmt.roundSigned (a ^^ b) (fmt.roundRatio m n))

/-! ## Square roots -/

/-- The integer square root of `n < 4 ^ k`, one binary digit per step. -/
def isqrtSteps : Nat → Nat → Nat
  | 0, _ => 0
  | k + 1, n =>
      let r := 2 * isqrtSteps k (n / 4)
      if (r + 1) * (r + 1) ≤ n then r + 1 else r

/-- The greatest number whose square is at most `n`. -/
def isqrt (n : Nat) : Nat :=
  isqrtSteps (n.log2 / 2 + 1) n

/-- The magnitude bits of the root of a finite datum, computed to half of the least
subnormal. -/
def roundSqrt (fmt : Format) (m : Nat) : Option Nat :=
  let square := m * 2 ^ (fmt.unitExponent + 2 * fmt.halfUnitPlaces).toNat
  let root := isqrt square
  fmt.round root (-fmt.halfUnitPlaces) (root * root ≠ square)

/-- A zero keeps its sign; any other negative number has no root. -/
def root? (x : fmt.Pattern) : Option fmt.Pattern :=
  match datum x with
  | .nan => none
  | .infinite a => if a then none else some (fmt.infinity false)
  | .finite a m =>
      if m = 0 then some (fmt.zero a)
      else if a then none
      else some (fmt.roundSigned false (roundSqrt fmt m))

/-! ## Rounding to an integer -/

/-- The four ways to choose between the integers around a number. -/
inductive IntegralMode where
  | ceil
  | floor
  | trunc
  | nearest
  deriving DecidableEq

namespace IntegralMode

/-- Whether the magnitude `whole + part / one` goes up to `whole + 1`. -/
def awayFromZero (mode : IntegralMode) (negative : Bool) (whole part one : Nat) : Bool :=
  match mode with
  | ceil => !negative && part != 0
  | floor => negative && part != 0
  | trunc => false
  | nearest => one < 2 * part || (2 * part == one && whole % 2 == 1)

end IntegralMode

/-- The number of units that make up one. -/
def unitsOfOne (fmt : Format) : Nat :=
  2 ^ (-fmt.unitExponent).toNat

/-- The magnitude of an integer near a finite datum, in units. -/
def integralUnits (fmt : Format) (mode : IntegralMode) (negative : Bool) (m : Nat) : Nat :=
  let one := fmt.unitsOfOne
  let whole := m / one
  let part := m % one
  (if mode.awayFromZero negative whole part one then whole + 1 else whole) * one

/-- The sign stays, so numbers that become zero become a zero of their sign. -/
def integral? (mode : IntegralMode) (x : fmt.Pattern) : Option fmt.Pattern :=
  match datum x with
  | .nan => none
  | .infinite a => some (fmt.infinity a)
  | .finite a m =>
      some (fmt.roundSigned a (fmt.round (integralUnits fmt mode a m) fmt.unitExponent false))

end Format

end Lanewise
