/-!
# Powers

Widths, masks and exponents make powers of two appear everywhere. Inside this library `^` on
natural numbers is the power of core Lean, also in a module that imports a library with a
power of its own, so that a definition means the same wherever it is read.
-/

namespace Lanewise

attribute [scoped instance (10000)] instPowNat

/-- One more word of width `w` multiplies the size of a number by `2 ^ w`. -/
theorem two_pow_succ_mul (n w : Nat) : 2 ^ ((n + 1) * w) = 2 ^ w * 2 ^ (n * w) := by
  rw [Nat.add_mul, Nat.one_mul, Nat.add_comm, Nat.pow_add]

end Lanewise
