import Lanewise.Decimal.Shortest
import Lanewise.Proofs.Decimal.Round

/-!
# Shortest decimals read back

The decimal that `Decimal.shortest` finds for the bits of a finite value rounds to these bits
(`round_shortest`). A neighbour on a grid is only taken if it does, and the decimal after the
last grid is the value itself.
-/

namespace Lanewise

namespace Decimal

open Format

variable {fmt : Format} {bits : ℕ}

theorem round_of_readsBack {d : Decimal} (h : readsBack fmt bits d = true) :
    d.round fmt = some bits := by
  rw [readsBack, Bool.and_eq_true, beq_iff_eq] at h
  exact h.2

/-- A decimal that is taken from a grid rounds to the bits. -/
theorem round_of_onGrid? {numerator denominator : ℕ} {exponent : ℤ} {d : Decimal}
    (h : onGrid? fmt bits numerator denominator exponent = some d) : d.round fmt = some bits := by
  unfold onGrid? at h
  simp only at h
  split at h
  next hbelow habove =>
    rw [Bool.and_eq_true] at habove
    rw [Option.some.injEq] at h
    split_ifs at h
    · exact h ▸ round_of_readsBack hbelow
    · exact h ▸ round_of_readsBack habove.2
  next hbelow _ => exact Option.some.inj h ▸ round_of_readsBack hbelow
  next _ habove =>
    rw [Bool.and_eq_true] at habove
    exact Option.some.inj h ▸ round_of_readsBack habove.2
  next => cases h

/-- With as many places as the power of two, the power of two is written out. -/
theorem value_exact (fmt : Format) (units : ℕ) :
    (exact fmt units).value = units * 2 ^ fmt.unitExponent := by
  have hunit := unitExponent_nonpos fmt
  obtain ⟨n, hn⟩ : ∃ n : ℕ, fmt.unitExponent = -n := ⟨(-fmt.unitExponent).toNat, by omega⟩
  have hten : (10 : ℚ) ^ n = 5 ^ n * 2 ^ n := by
    rw [← mul_pow]
    norm_num
  rw [value, exact, hn, Int.neg_neg, Int.toNat_natCast, zpow_neg, zpow_neg, zpow_natCast,
    zpow_natCast, hten]
  push_cast
  field_simp

theorem round_exact (heb : 2 ≤ fmt.exponentBits) (hbits : bits < fmt.infinityBits) :
    (exact fmt (fmt.magnitudeUnits bits)).round fmt = some bits := by
  have hvalue : (exact fmt (fmt.magnitudeUnits bits)).value = fmt.bitsValue ℚ bits :=
    value_exact fmt _
  rw [round_eq heb, hvalue, nearestBits_bitsValue, if_pos hbits]

theorem round_search (heb : 2 ≤ fmt.exponentBits) (hbits : bits < fmt.infinityBits) (count : ℕ)
    (exponent : ℤ) :
    (search fmt bits (fmt.magnitudeUnits bits) count exponent).round fmt = some bits := by
  induction count generalizing exponent with
  | zero => exact round_exact heb hbits
  | succ count ih =>
    rw [search, fraction]
    simp only
    split
    next hgrid => exact round_of_onGrid? hgrid
    next => exact ih _

/-- The shortest decimal of a finite value rounds to its bits. -/
theorem round_shortest (heb : 2 ≤ fmt.exponentBits) (hbits : bits < fmt.infinityBits) :
    (shortest fmt bits (fmt.magnitudeUnits bits)).round fmt = some bits :=
  round_search heb hbits _ _

end Decimal

end Lanewise
