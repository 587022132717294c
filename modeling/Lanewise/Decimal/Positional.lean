import Lanewise.Decimal.Basic

/-!
# Positional notation

A decimal written with all its digits and no power of ten : zeros fill the places up to the
point, and a whole number has no point.
-/

namespace Lanewise

namespace Decimal

def positional (d : Decimal) : List Char :=
  if 0 ≤ d.exponent then Numeral.least 10 (d.digits * 10 ^ d.exponent.toNat)
  else
    let places := (-d.exponent).toNat
    Numeral.least 10 (d.digits / 10 ^ places) ++ '.' :: Numeral.fixed 10 places d.digits

end Decimal

end Lanewise
