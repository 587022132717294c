import Lanewise.Proofs.Float.NaN
import Lanewise.Proofs.Float.Overflow
import Lanewise.Proofs.Literal.TooLarge

/-!
# The class of a float literal

`HasClass` says that a literal is read as what it is called : `inf` as an infinity, `nan` and a
payload as a NaN with the quiet bit or with this payload, and a finite literal as a finite
pattern. It holds for every reader of decimals that reports what it cannot keep finite, in exactly
the formats with two exponent bits or more. `readFloatWith_hasClass_iff` says this, and in which
formats a literal that is too large is refused.

With a single exponent bit the patterns below the least normal are followed by the infinity. A
number a little below the least normal then rounds to the infinity without being reported
(`readFloatWith_almostTwo`).
-/

namespace Lanewise

namespace Literal

open Numeral Format

variable {fmt : Format}

/-! ## The bits of a body -/

/-- What a body is called, said of magnitude bits. -/
def FloatBody.HasBits (fmt : Format) (bits : ℕ) : FloatBody → Prop
  | inf => bits = fmt.infinityBits
  | nan => bits = fmt.infinityBits + 2 ^ (fmt.mantissaBits - 1)
  | payload run => bits = fmt.infinityBits + Numeral.value 16 run.1 ∧
      Numeral.value 16 run.1 ≠ 0 ∧ Numeral.value 16 run.1 < 2 ^ fmt.mantissaBits
  | hex _ | decimal _ => bits < fmt.infinityBits

/-- A reader that reports every value it does not keep finite. -/
def ReportsInfinite (reader : DecimalReader fmt) : Prop :=
  ∀ text x, reader text = some (x, false) → IsFinite x

theorem payload_of_readPayload {run : DigitRun 16} {bits : ℕ}
    (h : readPayload fmt run.1 = .ok bits) :
    bits = fmt.infinityBits + Numeral.value 16 run.1 ∧
      Numeral.value 16 run.1 ≠ 0 ∧ Numeral.value 16 run.1 < 2 ^ fmt.mantissaBits := by
  rw [readPayload] at h
  obtain ⟨payload, hpayload, h⟩ := bind_eq_ok_iff.1 h
  obtain ⟨-, rfl, -⟩ := (readDigits_eq_ok_iff isRadix_sixteen _ _).1 hpayload
  split_ifs at h with hrange
  obtain rfl := Except.ok.inj h
  exact ⟨rfl, by omega, by omega⟩

/-- A hexadecimal literal is read as what its digits round to. -/
theorem round_of_readHexFloat {text : List Char} {bits : ℕ} (h : readHexFloat fmt text = .ok bits) :
    ∃ acc : HexAccumulator, acc.round fmt = some bits := by
  obtain ⟨parts, rfl⟩ := exists_hexParts h
  have hbody := parts.readHexFloat_toList fmt
  rw [h] at hbody
  split at hbody
  · next bits' hround =>
    rw [Except.ok.inj hbody]
    exact ⟨_, hround⟩
  · cases hbody

theorem hasBits_of_readFloatBody (heb : 2 ≤ fmt.exponentBits) {reader : DecimalReader fmt}
    (hreader : ReportsInfinite reader) {body : FloatBody} {bits : ℕ}
    (h : readFloatBody reader body.toList = .ok bits) : body.HasBits fmt bits := by
  cases body with
  | inf => exact (Except.ok.inj h).symm
  | nan => exact (Except.ok.inj h).symm
  | payload run => exact payload_of_readPayload h
  | hex parts =>
    obtain ⟨acc, hround⟩ := round_of_readHexFloat h
    exact round_lt_infinityBits heb hround
  | decimal parts =>
    rw [FloatBody.toList, readFloatBody_decimalParts, readDecimalWith] at h
    obtain ⟨cleaned, -, h⟩ := bind_eq_ok_iff.1 h
    split at h
    · cases h
    · cases h
    · next x hx =>
      rw [← Except.ok.inj h]
      exact (isFinite_iff x).1 (hreader _ _ hx)

/-! ## The class of a pattern -/

/-- A pattern is of the class that its literal after the sign calls it. -/
structure HasClass (body : List Char) (x : fmt.Pattern) : Prop where
  infinite : isInfinite x = true ↔ body = FloatBody.inf.toList
  nan : isNaN x = true ↔
    body = FloatBody.nan.toList ∨ ∃ run, body = (FloatBody.payload run).toList
  quiet : body = FloatBody.nan.toList → mantissa x = 2 ^ (fmt.mantissaBits - 1)
  payload : ∀ run, body = (FloatBody.payload run).toList → mantissa x = Numeral.value 16 run.1
  hex : ∀ parts, body = (FloatBody.hex parts).toList → IsFinite x
  decimal : ∀ parts, body = (FloatBody.decimal parts).toList → IsFinite x

theorem hasClass_pattern {text : List Char} {bits : ℕ} (negative : Bool)
    (hexists : ∃ body : FloatBody, body.toList = text)
    (hbits : ∀ body : FloatBody, body.toList = text → body.HasBits fmt bits) :
    HasClass text (fmt.pattern negative bits) := by
  have hadd := fmt.infinityBits_add
  have hpos := Nat.two_pow_pos (fmt.mantissaBits - 1)
  have hquiet := fmt.two_pow_quiet_lt
  obtain ⟨body, rfl⟩ := hexists
  have hbody := hbits body rfl
  have hlt : bits < 2 ^ (fmt.exponentBits + fmt.mantissaBits) := by
    cases body <;> simp only [FloatBody.HasBits] at hbody <;> omega
  have hmag := magnitude_pattern negative hlt
  refine ⟨?_, ?_, ?_, ?_, ?_, ?_⟩
  · rw [isInfinite_iff, hmag]
    constructor
    · intro h
      cases body with
      | inf => rfl
      | _ => simp only [FloatBody.HasBits] at hbody; omega
    · intro h
      exact hbits .inf h.symm
  · rw [isNaN_iff, hmag]
    constructor
    · intro h
      cases body with
      | nan => exact Or.inl rfl
      | payload run => exact Or.inr ⟨run, rfl⟩
      | _ => simp only [FloatBody.HasBits] at hbody; omega
    · rintro (h | ⟨run, h⟩)
      · have hnan := hbits .nan h.symm
        simp only [FloatBody.HasBits] at hnan
        omega
      · obtain ⟨hnan, hne, -⟩ := hbits (.payload run) h.symm
        omega
  · intro h
    have hnan := hbits .nan h.symm
    rw [mantissa_eq, hmag, hnan, mod_infinityBits_add hquiet]
  · intro run h
    obtain ⟨hnan, -, hfits⟩ := hbits (.payload run) h.symm
    rw [mantissa_eq, hmag, hnan, mod_infinityBits_add hfits]
  · intro parts h
    rw [isFinite_iff, hmag]
    exact hbits (.hex parts) h.symm
  · intro parts h
    rw [isFinite_iff, hmag]
    exact hbits (.decimal parts) h.symm

theorem hasClass_of_readFloatWith (heb : 2 ≤ fmt.exponentBits) {reader : DecimalReader fmt}
    (hreader : ReportsInfinite reader) {text : String} {x : fmt.Pattern}
    (h : readFloatWith fmt reader text = .ok x) : HasClass (splitSign text.toList).2 x := by
  obtain ⟨bits, hread, rfl⟩ := readFloatWith_eq_ok_iff.1 h
  refine hasClass_pattern _ (exists_floatBody hread) fun body hlist => ?_
  rw [← hlist] at hread
  exact hasBits_of_readFloatBody heb hreader hread

/-! ## A single exponent bit -/

/-- A number just below a power of two is rounded up to it. -/
theorem dropBits_two_pow_sub_one (n : ℕ) {drop : ℕ} (hdrop : 2 ≤ drop) (sticky : Bool) :
    dropBits (2 ^ (n + drop) - 1) drop sticky = 2 ^ n := by
  have hn := Nat.two_pow_pos n
  have hhalf : 2 ^ 1 ≤ 2 ^ (drop - 1) := Nat.pow_le_pow_right Nat.two_pos (by omega)
  have hdouble : 2 ^ (drop - 1) * 2 = 2 ^ drop := Nat.two_pow_pred_mul_two (by omega)
  have hsplit : 2 ^ (n + drop) - 1 = 2 ^ drop * (2 ^ n - 1) + (2 ^ drop - 1) := by
    rw [Nat.pow_add, Nat.mul_sub_one, Nat.mul_comm (2 ^ drop)]
    have hle : 2 ^ drop ≤ 2 ^ n * 2 ^ drop := Nat.le_mul_of_pos_left _ hn
    omega
  have hlt : 2 ^ drop - 1 < 2 ^ drop := by omega
  unfold dropBits
  simp only
  rw [hsplit, Nat.mul_add_div (by omega), Nat.div_eq_of_lt hlt, Nat.mul_add_mod,
    Nat.mod_eq_of_lt hlt, if_pos (Or.inl (by omega))]
  omega

theorem isRun_sixteen_f : IsRun 16 (List.replicate 16 'f') := by
  refine isRun_of_forall (by decide) fun c hc => ?_
  rw [List.eq_of_mem_replicate hc]
  decide

/-- `1.ffffffffffffffff`, a little less than two. -/
def almostTwo : FloatParts 16 isHexExponentMark where
  whole := ⟨['1'], isRun_one⟩
  fraction := some (some ⟨List.replicate 16 'f', isRun_sixteen_f⟩)
  exponent := none

/-- In units of the least subnormal, the number is rounded up to two. -/
theorem toUnit_almostTwo {mantissaBits : ℕ} (hmb : mantissaBits ≤ 62) :
    toUnit (2 ^ 65 - 1) (-64) (1 - mantissaBits) false = 2 ^ mantissaBits := by
  have hdrop : (1 - (mantissaBits : ℤ) - -64).toNat = 65 - mantissaBits := by omega
  have hsum : 65 = mantissaBits + (65 - mantissaBits) := by omega
  rw [toUnit, if_neg (by omega), hdrop]
  nth_rewrite 1 [hsum]
  exact dropBits_two_pow_sub_one _ (by omega) false

theorem minExponent_of_single (heb : fmt.exponentBits = 1) : fmt.minExponent = 1 := by
  rw [minExponent, bias, heb]
  rfl

theorem infinityBits_of_single (heb : fmt.exponentBits = 1) :
    fmt.infinityBits = 2 ^ fmt.mantissaBits := by
  rw [infinityBits, topExponent, heb]
  omega

/-- With a single exponent bit the least normal would be two, whose bits are the infinity. -/
theorem round_almostTwo (heb : fmt.exponentBits = 1) (hmb : fmt.mantissaBits ≤ 62) :
    fmt.round (2 ^ 65 - 1) (-64) false = some fmt.infinityBits := by
  have hlog : (2 ^ 65 - 1).log2 = 64 := by decide
  unfold Format.round
  simp only [hlog, unitExponent, minExponent_of_single heb]
  rw [if_neg (by omega), if_neg (by omega), if_pos (by omega), toUnit_almostTwo hmb,
    infinityBits_of_single heb]

/-- The digits fit the mantissa that is read. -/
theorem ofDigits_almostTwo (fmt : Format) :
    (HexAccumulator.ofDigits almostTwo.whole.1 almostTwo.fractionDigits
      (cutOff almostTwo.exponentValue)).round fmt = fmt.round (2 ^ 65 - 1) (-64) false := by
  rw [HexAccumulator.round]
  congr 1

theorem readFloatWith_almostTwo (heb : fmt.exponentBits = 1) (hmb : fmt.mantissaBits ≤ 62)
    (reader : DecimalReader fmt) :
    readFloatWith fmt reader (FloatLiteral.text ⟨none, .hex almostTwo⟩) =
      .ok (fmt.infinity false) := by
  have hread := almostTwo.readHexFloat_toList fmt
  rw [ofDigits_almostTwo, round_almostTwo heb hmb] at hread
  refine readFloatWith_eq_ok_iff.2 ⟨fmt.infinityBits, ?_, ?_⟩
  · rw [FloatLiteral.text, String.toList_ofList, splitSign_toList]
    exact hread
  · rw [FloatLiteral.text, String.toList_ofList, splitSign_toList]
    rfl

theorem isTooLarge_almostTwo (heb : fmt.exponentBits = 1) (hmb : fmt.mantissaBits ≤ 62)
    (reader : DecimalReader fmt) : (FloatBody.hex almostTwo).IsTooLarge reader := by
  have hvalue : almostTwo.value 2 = ((2 ^ 65 - 1 : ℕ) : ℚ) * 2 ^ (-64 : ℤ) := by
    have hdigits : almostTwo.digits = 2 ^ 65 - 1 := by decide
    have hgrid : almostTwo.grid almostTwo.exponentValue = -64 := by decide
    rw [FloatParts.value, ← FloatParts.digits_mul_grid, hdigits, hgrid]
  have hless : almostTwo.value 2 < 2 ^ fmt.minExponent := by
    rw [hvalue, minExponent_of_single heb]
    norm_num
  have hexact : EnclosedBy (almostTwo.value 2 / 2 ^ (-64 : ℤ)) (2 ^ 65 - 1) false := by
    rw [hvalue, mul_div_cancel_right₀ _ (two_zpow_pos _).ne']
    exact ⟨le_rfl, lt_add_one _, iff_of_true rfl rfl⟩
  have hround : toUnit (2 ^ 65 - 1) (-64) (1 - fmt.mantissaBits) false = _ :=
    toUnit_eq_halfEven hexact fun hset => absurd hset Bool.false_ne_true
  rw [toUnit_almostTwo hmb] at hround
  rw [FloatBody.IsTooLarge, nearestBits, ulpExponent, if_pos hless, unitExponent,
    minExponent_of_single heb, ← hround, infinityBits_of_single heb]
  exact Nat.le_add_left _ _

theorem length_almostTwo : (FloatLiteral.text ⟨none, .hex almostTwo⟩).length < 2 ^ 28 := by
  decide

theorem not_refusesTooLarge_almostTwo (heb : fmt.exponentBits = 1) (hmb : fmt.mantissaBits ≤ 62)
    (reader : DecimalReader fmt) : ¬RefusesTooLarge reader ⟨none, .hex almostTwo⟩ := by
  refine not_refusesTooLarge (isTooLarge_almostTwo heb hmb reader) (x := fmt.infinity false) ?_
  rw [readFloatWith_almostTwo heb hmb]
  rfl

/-! ## All formats -/

theorem reportsInfinite_none : ReportsInfinite fun _ => (none : Option (fmt.Pattern × Bool)) :=
  fun _ _ hsome => by cases hsome

theorem hasClass_iff (hwidth : fmt.mantissaBits + fmt.exponentBits ≤ 63) :
    (∀ reader : DecimalReader fmt, ReportsInfinite reader → ∀ text x,
      readFloatWith fmt reader text = .ok x → HasClass (splitSign text.toList).2 x) ↔
        2 ≤ fmt.exponentBits := by
  constructor
  · intro h
    by_contra heb
    have hpos := fmt.exponent_pos
    have hread := @readFloatWith_almostTwo fmt (by omega) (by omega) fun _ => none
    have hclass := h _ reportsInfinite_none _ _ hread
    rw [FloatLiteral.text, String.toList_ofList, splitSign_toList] at hclass
    have hfinite := (isFinite_iff _).1 (hclass.hex almostTwo rfl)
    rw [infinity, magnitude_pattern false fmt.infinityBits_lt] at hfinite
    exact Nat.lt_irrefl _ hfinite
  · intro heb reader hreader text x h
    exact hasClass_of_readFloatWith heb hreader h

theorem refusesTooLarge_iff (hwidth : fmt.mantissaBits + fmt.exponentBits ≤ 63) :
    (∀ reader : DecimalReader fmt, ReportsInfinite reader → ∀ lit : FloatLiteral,
      lit.text.length < 2 ^ 28 → RefusesTooLarge reader lit) ↔
        2 ≤ fmt.exponentBits ∧ fmt.exponentBits ≤ 31 := by
  have hpos := fmt.exponent_pos
  have hmb := fmt.mantissa_pos
  constructor
  · intro h
    by_contra hbits
    rcases (by omega : fmt.exponentBits = 1 ∨ 32 ≤ fmt.exponentBits) with heb | heb
    · exact not_refusesTooLarge_almostTwo heb (by omega) _
        (h _ reportsInfinite_none _ length_almostTwo)
    · exact not_refusesTooLarge_beyondLimit heb (by omega) (by omega) _
        (h _ reportsInfinite_none _ length_beyondLimit)
  · rintro ⟨heb, heb'⟩ reader - lit hlen
    exact refusesTooLarge heb heb' (by omega) reader hlen

/-- Literals have the class they are called by in exactly the formats with two exponent bits or
more. Those that are too large are refused, in texts of less than `2 ^ 28` characters, in exactly
the formats that have at most 31 exponent bits besides. No format refuses them in all texts. -/
theorem readFloatWith_hasClass_iff (hwidth : fmt.mantissaBits + fmt.exponentBits ≤ 63) :
    ((∀ reader : DecimalReader fmt, ReportsInfinite reader → ∀ text x,
      readFloatWith fmt reader text = .ok x → HasClass (splitSign text.toList).2 x) ↔
        2 ≤ fmt.exponentBits) ∧
    ((∀ reader : DecimalReader fmt, ReportsInfinite reader → ∀ lit : FloatLiteral,
      lit.text.length < 2 ^ 28 → RefusesTooLarge reader lit) ↔
        2 ≤ fmt.exponentBits ∧ fmt.exponentBits ≤ 31) ∧
    ¬∀ reader : DecimalReader fmt, ReportsInfinite reader → ∀ lit : FloatLiteral,
      RefusesTooLarge reader lit := by
  refine ⟨hasClass_iff hwidth, refusesTooLarge_iff hwidth, fun h => ?_⟩
  obtain ⟨heb, -⟩ := (refusesTooLarge_iff hwidth).1 fun reader hreader lit _ =>
    h reader hreader lit
  have hplaces : exponentLimit ≤ 4 * (2 ^ 29 + 1) := by decide
  exact not_refusesTooLarge_farPoint heb (by omega) _ hplaces (h _ reportsInfinite_none _)

/-- Single precision reads every literal as what it is called and refuses the first power of two
beyond it. -/
theorem readFloatWith_hasClass_binary32 :
    @HasClass binary32 ['i', 'n', 'f'] 0xFF800000#32 ∧
      (readFloatWith binary32 (fun _ => none) "0x1p128").mapError LiteralError.toError =
        .error ⟨.parse, Code.invalidLiteral, "float literal out of range"⟩ := by
  constructor
  · exact (@readFloatWith_hasClass_iff binary32 (by decide)).1.2 (by decide) _
      reportsInfinite_none "-inf" _ (by decide)
  · refine (@readFloatWith_hasClass_iff binary32 (by decide)).2.1.2 (by decide) _
      reportsInfinite_none (powerLiteral (writtenExponent 128)) (by decide) ?_
    exact isTooLarge_powerLiteral (by decide) (by decide) _

/-- The narrowest format has no number above one, and takes one and a half for an infinity. -/
theorem readFloatWith_narrowest :
    ∃ x, readFloatWith ⟨1, 1, by decide, by decide⟩ (fun _ => none) "0x1.8p0" = .ok x ∧
      ¬HasClass (splitSign "0x1.8p0".toList).2 x := by
  refine ⟨2#3, by decide, fun h => ?_⟩
  have hbody := h.infinite.1 (by decide)
  exact absurd hbody (by decide)

/-- With forty exponent bits, a power of two beyond the format is read as the power at the
limit. -/
example : readFloatWith ⟨10, 40, by decide, by decide⟩ (fun _ => none) "0x1p1099511627776" =
    .ok 0x201fffffff800#51 := by
  decide

end Literal

end Lanewise
