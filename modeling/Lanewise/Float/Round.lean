import Lanewise.Float.Format

/-!
# Rounding to a format

The one place where a number is rounded. A number is given by a natural `mantissa`, a power
of two and a `sticky` flag, which says that the number lies strictly between `mantissa` and
`mantissa + 1` of that power; it is rounded to the nearest value of the format, ties to the
even one, with gradual underflow. A mantissa with a set flag must have more bits than the
result keeps.

* `Format.round` returns magnitude bits, or `none` if the result is not finite.
* `Format.roundRatio` rounds a fraction : half of the least subnormal is a fine enough unit,
  since every midpoint between neighbours is a multiple of it.
* `Format.roundSigned` puts a sign in front and turns `none` into an infinity.
-/

namespace Lanewise

namespace Format

/-! ## Rounding away bits -/

/-- `mantissa / 2 ^ drop` to the nearest integer, ties to the even one. A sticky tail lifts
a tie to the next integer. -/
def dropBits (mantissa drop : Nat) (sticky : Bool) : Nat :=
  let kept := mantissa / 2 ^ drop
  let rest := mantissa % 2 ^ drop
  let half := 2 ^ (drop - 1)
  if half < rest ∨ rest = half ∧ (sticky ∨ kept % 2 = 1) then kept + 1 else kept

/-- The mantissa in units of `2 ^ unit`. A finer mantissa is rounded, a coarser one is exact. -/
def toUnit (mantissa : Nat) (exponent unit : Int) (sticky : Bool) : Nat :=
  if unit ≤ exponent then mantissa * 2 ^ (exponent - unit).toNat
  else dropBits mantissa (unit - exponent).toNat sticky

variable (fmt : Format)

/-! ## Rounding a number -/

/-- The magnitude bits of `mantissa * 2 ^ exponent`, rounded.

The unit is the weight of the last mantissa bit of the result. Counted in units, the result
is its own encoding once the exponent field of the unit is added : the hidden bit raises the
field by one, and a carry out of the mantissa raises it once more. Numbers below the least
normal have the smallest unit; numbers below half of the least subnormal vanish.

Only numbers from the least normal on are compared with the infinity. A smaller number can
reach its bits in a format with a single exponent bit, which has no normal values. -/
def round (mantissa : Nat) (exponent : Int) (sticky : Bool) : Option Nat :=
  if mantissa = 0 then some 0
  else
    let leading := mantissa.log2 + exponent
    if leading + 1 < fmt.unitExponent then some 0
    else if leading < fmt.minExponent then
      some (toUnit mantissa exponent fmt.unitExponent sticky)
    else
      let unit := leading - fmt.mantissaBits
      let field := (unit - fmt.unitExponent).toNat
      let bits := field * 2 ^ fmt.mantissaBits + toUnit mantissa exponent unit sticky
      if bits < fmt.infinityBits then some bits else none

/-- The exponent of half of the least subnormal, negated. -/
def halfUnitPlaces : Nat :=
  fmt.bias + fmt.mantissaBits

/-- The magnitude bits of a fraction, rounded. -/
def roundRatio (numerator denominator : Nat) : Option Nat :=
  let scaled := numerator * 2 ^ fmt.halfUnitPlaces
  fmt.round (scaled / denominator) (-fmt.halfUnitPlaces) (scaled % denominator ≠ 0)

/-- A rounded magnitude with its sign; what is too large becomes an infinity. -/
def roundSigned (negative : Bool) : Option Nat → fmt.Pattern
  | some bits => fmt.pattern negative bits
  | none => fmt.infinity negative

end Format

end Lanewise
