import Lanewise.Decimal.Basic

/-!
# Shortest decimals

The decimal that a float is written as : of all decimals that round to it, one with the
fewest digits, and of those the nearest.

The multiples of `10 ^ e` form a grid, and a decimal has few digits if it lies on a coarse
grid. `Decimal.onGrid?` tries the two neighbours of a value on one grid. `Decimal.search`
goes from a grid coarser than the value to finer ones and stops at the first hit, at the
latest on the grid that holds the value itself.
-/

namespace Lanewise

namespace Decimal

/-- The finite value `units * 2 ^ unitExponent` as a fraction. -/
def fraction (fmt : Format) (units : Nat) : Nat × Nat :=
  (units, 2 ^ (-fmt.unitExponent).toNat)

/-- A nonzero decimal that rounds to the given magnitude bits. -/
def readsBack (fmt : Format) (bits : Nat) (d : Decimal) : Bool :=
  d.digits != 0 && d.round fmt == some bits

/-- The neighbour of the fraction on the grid of step `10 ^ exponent` that rounds to the
given bits. If both do, the nearer one is taken, and of two equally near ones the greater. -/
def onGrid? (fmt : Format) (bits numerator denominator : Nat) (exponent : Int) :
    Option Decimal :=
  let scaled := numerator * 10 ^ (-exponent).toNat
  let step := denominator * 10 ^ exponent.toNat
  let below : Decimal := ⟨scaled / step, exponent⟩
  let above : Decimal := ⟨scaled / step + 1, exponent⟩
  let rest := scaled % step
  match readsBack fmt bits below, rest != 0 && readsBack fmt bits above with
  | true, true => some (if 2 * rest < step then below else above)
  | true, false => some below
  | false, true => some above
  | false, false => none

/-- The decimal equal to `units * 2 ^ unitExponent`, with as many places as the power of two. -/
def exact (fmt : Format) (units : Nat) : Decimal :=
  ⟨units * 5 ^ (-fmt.unitExponent).toNat, fmt.unitExponent⟩

/-- Tries `count` grids from the step `10 ^ exponent` down. -/
def search (fmt : Format) (bits units : Nat) : Nat → Int → Decimal
  | 0, _ => exact fmt units
  | count + 1, exponent =>
      let (numerator, denominator) := fraction fmt units
      match onGrid? fmt bits numerator denominator exponent with
      | some d => d
      | none => search fmt bits units count (exponent - 1)

/-- A power of ten above `units * 2 ^ unitExponent` : the power of two above it, times an
approximation of the decimal logarithm of two, and two to spare. -/
def topExponent (fmt : Format) (units : Nat) : Int :=
  (units.log2 + 1 + fmt.unitExponent) * 30103 / 100000 + 2

/-- The shortest decimal of the finite nonzero magnitude with the given bits and units. -/
def shortest (fmt : Format) (bits units : Nat) : Decimal :=
  let top := topExponent fmt units
  search fmt bits units (top - fmt.unitExponent + 1).toNat top

end Decimal

end Lanewise
