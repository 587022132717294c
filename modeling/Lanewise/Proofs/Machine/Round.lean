import Lanewise.Machine.Literal
import Lanewise.Proofs.Float.Overflow
import Lanewise.Proofs.Machine.Checked

/-!
# Rounding in machine words

On a mantissa below `2 ^ 124` and an exponent of at most 62 bits `Machine.round` never leaves its
words and gives what `Format.round` gives (`Machine.round_eq`), in every format of at most 64 bits.

The number of bits that are kept decides. It is at most `mantissaBits + 1`, so a mantissa is moved
up by less than 64 places; it is not negative when it is used, so a mantissa is moved down by less
than 125 (`dropBits_eq`). Of a normal number the kept mantissa lies between `2 ^ mantissaBits` and
`2 ^ (mantissaBits + 1)`, and at the upper end the carry moves one bit to the exponent
(`encode_normal`). Below the least normal the kept mantissa is the result (`encode_subnormal`).
-/

namespace Lanewise

/-! ## Bounds of a rounded mantissa -/

namespace Format

theorem le_dropBits (mantissa drop : ℕ) (sticky : Bool) :
    mantissa / 2 ^ drop ≤ dropBits mantissa drop sticky := by
  unfold dropBits
  simp only
  split_ifs <;> omega

/-- A number from a power of two on does not round to less than this power. -/
theorem le_toUnit {mantissa n : ℕ} (hm : mantissa ≠ 0) {exponent unit : ℤ}
    (h : unit + n ≤ (mantissa.log2 : ℤ) + exponent) (sticky : Bool) :
    2 ^ n ≤ toUnit mantissa exponent unit sticky := by
  have hle : 2 ^ mantissa.log2 ≤ mantissa := Nat.log2_self_le hm
  unfold toUnit
  split_ifs with hunit
  · calc 2 ^ n ≤ 2 ^ (mantissa.log2 + (exponent - unit).toNat) :=
          Nat.pow_le_pow_right Nat.two_pos (by omega)
      _ = 2 ^ mantissa.log2 * 2 ^ (exponent - unit).toNat := Nat.pow_add ..
      _ ≤ mantissa * 2 ^ (exponent - unit).toNat := Nat.mul_le_mul_right _ hle
  · refine (Nat.le_div_iff_mul_le (Nat.two_pow_pos _)).2 ?_ |>.trans (le_dropBits _ _ sticky)
    calc 2 ^ n * 2 ^ (unit - exponent).toNat = 2 ^ (n + (unit - exponent).toNat) :=
          (Nat.pow_add ..).symm
      _ ≤ 2 ^ mantissa.log2 := Nat.pow_le_pow_right Nat.two_pos (by omega)
      _ ≤ mantissa := hle

end Format

namespace Machine

variable {fmt : Format}

theorem infinityBits_or {x : ℕ} (h : x < 2 ^ fmt.mantissaBits) :
    fmt.infinityBits ||| x = fmt.infinityBits + x := by
  rw [Format.infinityBits, Nat.mul_comm, Nat.two_pow_add_eq_or_of_lt h]

/-! ## Masks -/

section

variable (hwidth : fmt.mantissaBits + fmt.exponentBits ≤ 63)

include hwidth

theorem bias_lt_two_pow : fmt.bias < 2 ^ 61 := by
  have hmb := fmt.mantissa_pos
  exact Format.bias_lt (by omega)

theorem infinityBits_lt_two_pow : fmt.infinityBits < 2 ^ 63 :=
  fmt.infinityBits_lt.trans_le (Nat.pow_le_pow_right Nat.two_pos (by omega))

theorem mantissaMask_eq : mantissaMask fmt = pure (2 ^ fmt.mantissaBits - 1) :=
  lowMask_eq (by omega)

theorem exponentMask_eq : exponentMask fmt = pure fmt.infinityBits := by
  have hlt := infinityBits_lt_two_pow hwidth
  rw [exponentMask, lowMask_eq (by omega), pure_bind, shiftLeft_eq (by omega)]
  · rfl
  · rw [Format.infinityBits, Format.topExponent] at hlt
    omega

theorem signBit_eq : signBit fmt = pure (2 ^ (fmt.exponentBits + fmt.mantissaBits)) := by
  rw [signBit, add_eq (by omega), pure_bind, Nat.add_comm, shiftLeft_one (by omega)]

theorem quietBit_eq : quietBit fmt = pure (2 ^ (fmt.mantissaBits - 1)) := by
  rw [quietBit, sub_eq fmt.mantissa_pos, pure_bind, shiftLeft_one (by omega)]

theorem canonicalNaN_eq :
    canonicalNaN fmt = pure (fmt.infinityBits + 2 ^ (fmt.mantissaBits - 1)) := by
  have hmb := fmt.mantissa_pos
  have hlt : 2 ^ (fmt.mantissaBits - 1) < 2 ^ fmt.mantissaBits :=
    Nat.pow_lt_pow_right Nat.one_lt_two (by omega)
  rw [canonicalNaN, exponentMask_eq hwidth, quietBit_eq hwidth, pure_bind, pure_bind,
    infinityBits_or hlt]

theorem bias_eq : bias fmt = pure (fmt.bias : ℤ) := by
  have hlt := bias_lt_two_pow hwidth
  have hpos := Nat.two_pow_pos (fmt.exponentBits - 1)
  have hcast : ((2 ^ (fmt.exponentBits - 1) : ℕ) : ℤ) - 1 = fmt.bias := by
    rw [Format.bias, Int.natCast_sub hpos]
    rfl
  have hmb := fmt.mantissa_pos
  rw [bias, sub_eq fmt.exponent_pos, pure_bind, signedShiftLeft_one (by omega), pure_bind, hcast,
    signed_eq (by omega)]

end

/-! ## Dropping bits -/

theorem splitBits_eq (mantissa : ℕ) {drop : ℕ} (hpos : 0 < drop) (hlt : drop < 128) :
    splitBits mantissa drop =
      pure (mantissa / 2 ^ drop, mantissa % 2 ^ drop, 2 ^ (drop - 1)) := by
  rw [splitBits, if_neg (by omega), unsigned_eq (by omega), pure_bind, Int.toNat_natCast,
    shiftRight_eq hlt, pure_bind, lowMask_eq hlt, pure_bind, sub_eq hpos, pure_bind,
    shiftLeft_one (by omega), pure_bind, Nat.and_two_pow_sub_one_eq_mod]

/-- Zeros are added to a mantissa only up to the 64 bits that are kept at most. -/
theorem mul_two_pow_lt {mantissa : ℕ} (hmantissa : mantissa < 2 ^ 124) {exponent unit : ℤ}
    (hkeep : (mantissa.log2 : ℤ) + exponent < unit + 64) :
    mantissa * 2 ^ (exponent - unit).toNat < 2 ^ 128 := by
  rcases le_total exponent unit with hle | hle
  · rw [Int.toNat_of_nonpos (by omega)]
    omega
  · calc mantissa * 2 ^ (exponent - unit).toNat
        < 2 ^ (mantissa.log2 + 1) * 2 ^ (exponent - unit).toNat :=
          Nat.mul_lt_mul_of_pos_right Nat.lt_log2_self (Nat.two_pow_pos _)
      _ = 2 ^ (mantissa.log2 + 1 + (exponent - unit).toNat) := (Nat.pow_add ..).symm
      _ ≤ 2 ^ 128 := Nat.pow_le_pow_right Nat.two_pos (by omega)

/-- The bits are those of the mantissa in the unit that is `drop` powers of two above its own. -/
theorem dropBits_eq {mantissa : ℕ} (hmantissa : mantissa < 2 ^ 124) {exponent unit : ℤ}
    (hdrop : unit - exponent < 128) (hkeep : (mantissa.log2 : ℤ) + exponent < unit + 64)
    (sticky : Bool) :
    dropBits mantissa (unit - exponent) sticky =
      pure (Format.toUnit mantissa exponent unit sticky) := by
  unfold dropBits Format.toUnit
  by_cases hle : unit ≤ exponent
  · rw [if_pos (by omega), if_pos hle, signed_eq (by omega), pure_bind, unsigned_eq (by omega),
      pure_bind, neg_sub, shiftLeft_eq (by omega) (mul_two_pow_lt hmantissa hkeep)]
  · obtain ⟨drop, hdrop⟩ : ∃ drop : ℕ, unit - exponent = drop := Int.eq_ofNat_of_zero_le (by omega)
    have hkept : mantissa / 2 ^ drop ≤ mantissa := Nat.div_le_self ..
    rw [if_neg (by omega), if_neg hle, hdrop, splitBits_eq mantissa (by omega) (by omega),
      pure_bind, Int.toNat_natCast, Format.dropBits]
    simp only [Nat.and_one_is_mod]
    split_ifs
    · exact add_eq (by omega)
    · rfl

/-- What is left of the rounding once it is known how many bits are kept. -/
theorem round_of_keep {mantissa : ℕ} (hzero : mantissa ≠ 0) (hmantissa : mantissa < 2 ^ 124)
    {exponent : ℤ} (hexponent : -2 ^ 62 ≤ exponent ∧ exponent < 2 ^ 62) {keep : ℤ} (hle : keep ≤ 64)
    (hkeep : keptBits fmt (mantissa.log2 + exponent) = pure keep) (sticky : Bool) :
    round fmt mantissa exponent sticky =
      if keep < 0 then pure (some 0)
      else dropBits mantissa (mantissa.log2 + 1 - keep) sticky >>= fun kept =>
        encode fmt keep kept (mantissa.log2 + exponent) := by
  have hlog : mantissa.log2 < 124 := (Nat.log2_lt hzero).2 hmantissa
  have hzeros : sub 127 (leadingZeros 128 mantissa) = pure mantissa.log2 := by
    rw [leadingZeros, if_neg hzero, sub_eq (by omega)]
    congr 1
    omega
  rw [round, if_neg hzero, hzeros, pure_bind, signed_eq (by omega), pure_bind, hkeep, pure_bind]
  split_ifs with hvanish
  · rfl
  · rw [signed_eq (by omega), pure_bind, signed_eq (by omega), pure_bind]

/-! ## The bits of a result -/

section

variable (hwidth : fmt.mantissaBits + fmt.exponentBits ≤ 63)

include hwidth

/-- The exponent field and the mantissa without its hidden bit are the field below and the mantissa
with its hidden bit. -/
theorem assemble_eq {kept below : ℕ} (hlow : 2 ^ fmt.mantissaBits ≤ kept)
    (hhigh : kept < 2 ^ (fmt.mantissaBits + 1)) :
    assemble fmt kept (fmt.minExponent + below) =
      pure (if below * 2 ^ fmt.mantissaBits + kept < fmt.infinityBits then
        some (below * 2 ^ fmt.mantissaBits + kept) else none) := by
  obtain ⟨rest, rfl⟩ := Nat.exists_eq_add_of_le hlow
  have hmb := fmt.mantissa_pos
  have heb := fmt.exponent_pos
  have hbias := bias_lt_two_pow hwidth
  have hinf := infinityBits_lt_two_pow hwidth
  have hmin : fmt.minExponent = 1 - fmt.bias := rfl
  have htop : fmt.infinityBits = (2 * fmt.bias + 1) * 2 ^ fmt.mantissaBits := by
    rw [Format.infinityBits, Format.topExponent_eq]
  have hbits : below * 2 ^ fmt.mantissaBits + (2 ^ fmt.mantissaBits + rest) =
      (below + 1) * 2 ^ fmt.mantissaBits + rest := by ring
  have hrest : rest < 2 ^ fmt.mantissaBits := by
    rw [Nat.pow_succ] at hhigh
    omega
  have hpow : 2 ^ (fmt.mantissaBits + 1) ≤ 2 ^ 63 := Nat.pow_le_pow_right Nat.two_pos (by omega)
  rw [assemble, bias_eq hwidth, pure_bind, hbits]
  by_cases hlarge : 2 * fmt.bias ≤ below
  · have hle : fmt.infinityBits ≤ (below + 1) * 2 ^ fmt.mantissaBits := by
      rw [htop]
      exact Nat.mul_le_mul_right _ (by omega)
    rw [if_pos (by omega), if_neg (by omega)]
  · have hlt : (below + 1) * 2 ^ fmt.mantissaBits + rest < fmt.infinityBits :=
      calc (below + 1) * 2 ^ fmt.mantissaBits + rest
          < (below + 1) * 2 ^ fmt.mantissaBits + 2 ^ fmt.mantissaBits := by omega
        _ = (below + 2) * 2 ^ fmt.mantissaBits := by ring
        _ ≤ fmt.infinityBits := by
          rw [htop]
          exact Nat.mul_le_mul_right _ (by omega)
    have hfield : fmt.minExponent + below + fmt.bias = (below + 1 : ℕ) := by
      push_cast
      omega
    have hor : (below + 1) * 2 ^ fmt.mantissaBits ||| rest =
        (below + 1) * 2 ^ fmt.mantissaBits + rest := by
      rw [Nat.mul_comm, Nat.two_pow_add_eq_or_of_lt hrest]
    rw [if_neg (by omega), if_pos hlt, hfield, signed_eq (by omega), pure_bind,
      unsigned_eq (by omega), pure_bind, Int.toNat_natCast,
      shiftLeft_eq (by omega) (by omega), pure_bind, narrow_eq (by omega), pure_bind,
      mantissaMask_eq hwidth, pure_bind, Nat.and_two_pow_sub_one_eq_mod, Nat.add_mod_left,
      Nat.mod_eq_of_lt hrest, hor]

/-- A mantissa that was rounded up to the next power of two gives the least number of the next
exponent. -/
theorem encode_normal {kept below : ℕ} (hlow : 2 ^ fmt.mantissaBits ≤ kept)
    (hhigh : kept ≤ 2 ^ (fmt.mantissaBits + 1))
    (hleading : fmt.minExponent + below + 1 < 2 ^ 63) :
    encode fmt (fmt.mantissaBits + 1) kept (fmt.minExponent + below) =
      pure (if below * 2 ^ fmt.mantissaBits + kept < fmt.infinityBits then
        some (below * 2 ^ fmt.mantissaBits + kept) else none) := by
  have heb := fmt.exponent_pos
  have hbias := bias_lt_two_pow hwidth
  have hmin : fmt.minExponent = 1 - fmt.bias := rfl
  have hprecision : ((fmt.mantissaBits : ℤ) + 1).toNat = fmt.mantissaBits + 1 := by omega
  rw [encode, signed_eq (by omega), pure_bind, if_pos rfl, carry, unsigned_eq (by omega), pure_bind,
    hprecision, shiftRight_eq (by omega), pure_bind]
  simp only [if_neg (lt_irrefl _)]
  rcases Nat.lt_or_eq_of_le hhigh with hlt | rfl
  · rw [if_pos (Nat.div_eq_of_lt hlt), pure_bind]
    exact assemble_eq hwidth hlow hlt
  · have hbits : below * 2 ^ fmt.mantissaBits + 2 ^ (fmt.mantissaBits + 1) =
        (below + 1) * 2 ^ fmt.mantissaBits + 2 ^ fmt.mantissaBits := by ring
    have hhalf : 2 ^ (fmt.mantissaBits + 1) / 2 ^ 1 = 2 ^ fmt.mantissaBits := by
      rw [Nat.pow_div (by omega) Nat.two_pos, Nat.add_sub_cancel]
    have hnext : fmt.minExponent + below + 1 = fmt.minExponent + (below + 1 : ℕ) := by
      push_cast
      ring
    rw [Nat.div_self (Nat.two_pow_pos _), if_neg Nat.one_ne_zero, shiftRight_eq (by omega),
      pure_bind, signed_eq (by omega), pure_bind, pure_bind, hhalf, hnext, hbits]
    exact assemble_eq hwidth le_rfl (Nat.pow_lt_pow_right Nat.one_lt_two (by omega))

theorem encode_subnormal {keep leading : ℤ} (hkeep : keep < fmt.mantissaBits + 1) {kept : ℕ}
    (hkept : kept < 2 ^ 64) : encode fmt keep kept leading = pure (some kept) := by
  rw [encode, signed_eq (by omega), pure_bind, if_neg hkeep.ne, pure_bind]
  simp only [if_pos hkeep]
  rw [narrow_eq hkept, pure_bind]

/-! ## The rounded number -/

theorem keptBits_eq {leading : ℤ} (hleast : -2 ^ 62 ≤ leading) :
    keptBits fmt leading = pure (if fmt.minExponent ≤ leading then (fmt.mantissaBits + 1 : ℤ)
      else fmt.mantissaBits + 1 - (fmt.minExponent - leading)) := by
  have hbias := bias_lt_two_pow hwidth
  have hmin : 1 - (fmt.bias : ℤ) = fmt.minExponent := rfl
  rw [keptBits, bias_eq hwidth, pure_bind, hmin, signed_eq (by omega), pure_bind,
    signed_eq (by omega), pure_bind]
  split_ifs with hnormal
  · rfl
  · rw [signed_eq (by omega), pure_bind, signed_eq (by omega)]

section

variable {mantissa : ℕ} (hzero : mantissa ≠ 0) (hmantissa : mantissa < 2 ^ 124) {exponent : ℤ}
  (hexponent : -2 ^ 62 ≤ exponent ∧ exponent < 2 ^ 62)

include hzero hmantissa hexponent

/-- From the least normal on the unit is `mantissaBits` powers of two below the leading bit. -/
theorem round_normal (hnormal : fmt.minExponent ≤ mantissa.log2 + exponent) (sticky : Bool) :
    round fmt mantissa exponent sticky = pure (fmt.round mantissa exponent sticky) := by
  have hlog : mantissa.log2 < 124 := (Nat.log2_lt hzero).2 hmantissa
  have hunit : fmt.unitExponent = fmt.minExponent - fmt.mantissaBits := rfl
  obtain ⟨below, hbelow⟩ : ∃ below : ℕ, mantissa.log2 + exponent - fmt.minExponent = below :=
    Int.eq_ofNat_of_zero_le (by omega)
  have hleading : (mantissa.log2 : ℤ) + exponent = fmt.minExponent + below := by omega
  have hkeep : keptBits fmt (mantissa.log2 + exponent) = pure (fmt.mantissaBits + 1 : ℤ) := by
    rw [keptBits_eq hwidth (by omega), if_pos hnormal]
  have hdrop : (mantissa.log2 : ℤ) + 1 - (fmt.mantissaBits + 1) =
      mantissa.log2 + exponent - fmt.mantissaBits - exponent := by ring
  have hfield : (mantissa.log2 + exponent - fmt.mantissaBits - fmt.unitExponent).toNat = below := by
    omega
  obtain ⟨kept, hkept⟩ : ∃ kept, kept =
      Format.toUnit mantissa exponent (mantissa.log2 + exponent - fmt.mantissaBits) sticky :=
    ⟨_, rfl⟩
  have hlow : 2 ^ fmt.mantissaBits ≤ kept := by
    rw [hkept]
    exact Format.le_toUnit hzero (by omega) sticky
  have hhigh : kept ≤ 2 ^ (fmt.mantissaBits + 1) := by
    rw [hkept]
    exact Format.toUnit_le (by push_cast; omega) sticky
  rw [round_of_keep hzero hmantissa hexponent (by omega) hkeep, if_neg (by omega), hdrop,
    dropBits_eq hmantissa (by omega) (by omega), pure_bind, Format.round, if_neg hzero,
    if_neg (by omega), if_neg (by omega)]
  simp only [hfield, ← hkept]
  rw [hleading, encode_normal hwidth hlow hhigh (by omega)]

/-- Below the least normal the unit stays, so fewer bits are kept, down to none. -/
theorem round_subnormal (hsmall : (mantissa.log2 : ℤ) + exponent < fmt.minExponent)
    (sticky : Bool) :
    round fmt mantissa exponent sticky = pure (fmt.round mantissa exponent sticky) := by
  have hlog : mantissa.log2 < 124 := (Nat.log2_lt hzero).2 hmantissa
  have hunit : fmt.unitExponent = fmt.minExponent - fmt.mantissaBits := rfl
  obtain ⟨keep, hkeep⟩ : ∃ keep, keep =
      fmt.mantissaBits + 1 - (fmt.minExponent - (mantissa.log2 + exponent)) := ⟨_, rfl⟩
  have hkept : keptBits fmt (mantissa.log2 + exponent) = pure keep := by
    rw [keptBits_eq hwidth (by omega), if_neg (by omega), hkeep]
  rw [round_of_keep hzero hmantissa hexponent (by omega) hkept, Format.round, if_neg hzero]
  by_cases hvanish : keep < 0
  · rw [if_pos hvanish, if_pos (by omega)]
  · have hdrop : (mantissa.log2 : ℤ) + 1 - keep = fmt.unitExponent - exponent := by omega
    have hle : Format.toUnit mantissa exponent fmt.unitExponent sticky ≤ 2 ^ fmt.mantissaBits :=
      Format.toUnit_le (by omega) sticky
    have hpow : 2 ^ fmt.mantissaBits < 2 ^ 64 := Nat.pow_lt_pow_right Nat.one_lt_two (by omega)
    rw [if_neg hvanish, hdrop, dropBits_eq hmantissa (by omega) (by omega), pure_bind,
      if_neg (by omega), if_pos hsmall, encode_subnormal hwidth (by omega) (by omega)]

end

/-- Within 124 bits of mantissa and 62 bits of exponent rounding stays in its words. -/
theorem round_eq {mantissa : ℕ} (hmantissa : mantissa < 2 ^ 124) {exponent : ℤ}
    (hexponent : -2 ^ 62 ≤ exponent ∧ exponent < 2 ^ 62) (sticky : Bool) :
    round fmt mantissa exponent sticky = pure (fmt.round mantissa exponent sticky) := by
  by_cases hzero : mantissa = 0
  · simp [round, Format.round, hzero]
  rcases le_or_gt fmt.minExponent (mantissa.log2 + exponent) with hnormal | hsmall
  · exact round_normal hwidth hzero hmantissa hexponent hnormal sticky
  · exact round_subnormal hwidth hzero hmantissa hexponent hsmall sticky

end

end Machine

end Lanewise
