import Lanewise.Float.Lane
import Lanewise.Proofs.Float.Magnitude

/-!
# The NaN of an operation

Setting the quiet bit of a NaN changes no other bit (`getLsbD_quiet`), so the NaN is still one and
keeps its sign and the rest of its payload.

`Settled` is what the operations promise about NaNs. A NaN operand decides the result, the first
one if there are several; without one an invalid operation has the canonical NaN; any other
operation has its IEEE result, which is not a NaN. A machine may return any NaN where there is no
IEEE result (`IsMachineResult`). The promise does not depend on which one it is.

`settled_settle` : filling in a result with `settle` keeps the promise, if the result is missing
exactly where an operand is a NaN or the operation is invalid.
-/

namespace Lanewise

namespace Format

variable {fmt : Format}

/-! ## The quiet bit -/

theorem getLsbD_quietBit (fmt : Format) (i : ℕ) :
    fmt.quietBit.getLsbD i = decide (i = fmt.mantissaBits - 1) := by
  have hpos := fmt.mantissa_pos
  rw [quietBit, BitVec.getLsbD_ofNat, Nat.testBit_two_pow]
  by_cases h : i = fmt.mantissaBits - 1
  · subst h
    have hlt : fmt.mantissaBits - 1 < fmt.width := by
      rw [width]
      omega
    simp [hlt]
  · have hne : ¬fmt.mantissaBits - 1 = i := fun heq => h heq.symm
    simp [h, hne]

/-- Only the quiet bit changes. -/
theorem getLsbD_quiet (x : fmt.Pattern) (i : ℕ) :
    (quiet x).getLsbD i = (x.getLsbD i || decide (i = fmt.mantissaBits - 1)) := by
  rw [quiet, BitVec.getLsbD_or, getLsbD_quietBit]

theorem exponent_or (x y : fmt.Pattern) : exponent (x ||| y) = exponent x ||| exponent y := by
  unfold exponent
  rw [BitVec.toNat_or, Nat.or_div_two_pow, Nat.or_mod_two_pow]

theorem mantissa_or (x y : fmt.Pattern) : mantissa (x ||| y) = mantissa x ||| mantissa y := by
  unfold mantissa
  rw [BitVec.toNat_or, Nat.or_mod_two_pow]

theorem toNat_quietBit (fmt : Format) : fmt.quietBit.toNat = 2 ^ (fmt.mantissaBits - 1) := by
  have hpos := fmt.mantissa_pos
  rw [quietBit, BitVec.toNat_ofNat, Nat.mod_eq_of_lt]
  refine Nat.pow_lt_pow_right Nat.one_lt_two ?_
  rw [width]
  omega

theorem two_pow_quiet_lt (fmt : Format) : 2 ^ (fmt.mantissaBits - 1) < 2 ^ fmt.mantissaBits :=
  Nat.pow_lt_pow_right Nat.one_lt_two (Nat.sub_lt fmt.mantissa_pos Nat.one_pos)

theorem exponent_quietBit (fmt : Format) : exponent fmt.quietBit = 0 := by
  rw [exponent, toNat_quietBit, Nat.div_eq_of_lt fmt.two_pow_quiet_lt, Nat.zero_mod]

theorem mantissa_quietBit (fmt : Format) :
    mantissa fmt.quietBit = 2 ^ (fmt.mantissaBits - 1) := by
  rw [mantissa, toNat_quietBit, Nat.mod_eq_of_lt fmt.two_pow_quiet_lt]

theorem exponent_quiet (x : fmt.Pattern) : exponent (quiet x) = exponent x := by
  rw [quiet, exponent_or, exponent_quietBit, Nat.or_zero]

theorem mantissa_quiet (x : fmt.Pattern) :
    mantissa (quiet x) = mantissa x ||| 2 ^ (fmt.mantissaBits - 1) := by
  rw [quiet, mantissa_or, mantissa_quietBit]

theorem isNaN_quiet {x : fmt.Pattern} (h : isNaN x = true) : isNaN (quiet x) = true := by
  have hpos := Nat.two_pow_pos (fmt.mantissaBits - 1)
  have hle : 2 ^ (fmt.mantissaBits - 1) ≤ mantissa x ||| 2 ^ (fmt.mantissaBits - 1) :=
    Nat.right_le_or
  rw [isNaN, decide_eq_true_eq] at h ⊢
  rw [exponent_quiet, mantissa_quiet]
  exact ⟨h.1, by omega⟩

/-! ## The canonical NaN -/

theorem exponentMask_eq (fmt : Format) : fmt.exponentMask = fmt.infinity false := by
  rw [infinity, pattern, exponentMask]
  simp

theorem magnitude_exponentMask (fmt : Format) : magnitude fmt.exponentMask = fmt.infinityBits := by
  rw [exponentMask_eq]
  exact magnitude_pattern false fmt.infinityBits_lt

theorem mantissa_exponentMask (fmt : Format) : mantissa fmt.exponentMask = 0 := by
  rw [mantissa_eq, magnitude_exponentMask, infinityBits, Nat.mul_mod_left]

theorem exponent_exponentMask (fmt : Format) : exponent fmt.exponentMask = fmt.topExponent := by
  rw [exponent_eq, magnitude_exponentMask, infinityBits,
    Nat.mul_div_cancel _ (Nat.two_pow_pos _)]

/-- The mantissa of the canonical NaN is the quiet bit alone. -/
theorem mantissa_canonicalNaN (fmt : Format) :
    mantissa fmt.canonicalNaN = 2 ^ (fmt.mantissaBits - 1) := by
  rw [canonicalNaN, mantissa_or, mantissa_exponentMask, mantissa_quietBit, Nat.zero_or]

theorem isNaN_canonicalNaN (fmt : Format) : isNaN fmt.canonicalNaN = true := by
  have hpos := Nat.two_pow_pos (fmt.mantissaBits - 1)
  rw [isNaN, decide_eq_true_eq, mantissa_canonicalNaN, canonicalNaN, exponent_or,
    exponent_exponentMask, exponent_quietBit, Nat.or_zero]
  exact ⟨rfl, by omega⟩

theorem getLsbD_canonicalNaN (fmt : Format) :
    fmt.canonicalNaN.getLsbD (fmt.mantissaBits - 1) = true := by
  rw [canonicalNaN, BitVec.getLsbD_or, getLsbD_quietBit]
  simp

/-! ## Comparisons -/

/-- A relation with a NaN fails. -/
theorem related_of_isNaN {r : ℤ → ℤ → Bool} {x y : fmt.Pattern}
    (h : isNaN x = true ∨ isNaN y = true) : related r x y = false := by
  unfold related
  rcases h with hx | hy
  · simp [value?, hx]
  · simp [value?, hy]

/-! ## Settled results -/

/-- What a machine may return for an operation : its IEEE result, or any NaN if there is none. -/
def IsMachineResult (result : Option fmt.Pattern) (raw : fmt.Pattern) : Prop :=
  match result with
  | some value => raw = value
  | none => isNaN raw = true

/-- The result `z` of an operation is its IEEE result, or else a NaN that its operands determine. -/
structure Settled (operands : List fmt.Pattern) (Invalid : Prop) (result : Option fmt.Pattern)
    (z : fmt.Pattern) : Prop where
  /-- The first NaN operand with the quiet bit set, and every other bit unchanged. -/
  propagated : ∀ n, operands.find? isNaN = some n →
    isNaN z = true ∧ ∀ i, z.getLsbD i = (n.getLsbD i || decide (i = fmt.mantissaBits - 1))
  /-- The canonical NaN of an invalid operation on operands that are not NaNs. -/
  canonical : (∀ n ∈ operands, isNaN n = false) → Invalid → z = fmt.canonicalNaN
  /-- The IEEE result of any other operation. -/
  exact : (∀ n ∈ operands, isNaN n = false) → ¬Invalid → result = some z ∧ isNaN z = false
  /-- A NaN is quiet. -/
  quiet : isNaN z = true → z.getLsbD (fmt.mantissaBits - 1) = true
  /-- Operands with the canonical payload have no other payload as their result. -/
  payload : (∀ n ∈ operands, isNaN n = true → mantissa n = 2 ^ (fmt.mantissaBits - 1)) →
    isNaN z = true → mantissa z = 2 ^ (fmt.mantissaBits - 1)
  /-- The NaN that a machine returns is replaced, whatever its bits are. -/
  machine : ∀ raw, IsMachineResult result raw →
    z = if isNaN raw then nanOf operands else raw

variable {operands : List fmt.Pattern} {Invalid : Prop} {result : Option fmt.Pattern}

theorem nanOf_of_find? {n : fmt.Pattern} (h : operands.find? isNaN = some n) :
    nanOf operands = Format.quiet n := by
  rw [nanOf, h]

theorem nanOf_of_forall (h : ∀ n ∈ operands, isNaN n = false) :
    nanOf operands = fmt.canonicalNaN := by
  have hnone : operands.find? isNaN = none :=
    List.find?_eq_none.2 fun n hn => by simp [h n hn]
  rw [nanOf, hnone]

/-- The NaN of the operands is a NaN of one of two kinds. -/
theorem nanOf_cases (operands : List fmt.Pattern) :
    (∃ n ∈ operands, isNaN n = true ∧ nanOf operands = Format.quiet n) ∨
      (∀ n ∈ operands, isNaN n = false) ∧ nanOf operands = fmt.canonicalNaN := by
  cases h : operands.find? isNaN with
  | some n =>
    exact Or.inl ⟨n, List.mem_of_find?_eq_some h, List.find?_some h, nanOf_of_find? h⟩
  | none =>
    have hforall : ∀ n ∈ operands, isNaN n = false := by simpa using h
    exact Or.inr ⟨hforall, nanOf_of_forall hforall⟩

theorem isNaN_nanOf (operands : List fmt.Pattern) : isNaN (nanOf operands) = true := by
  rcases nanOf_cases operands with ⟨n, -, hn, heq⟩ | ⟨-, heq⟩
  · rw [heq]
    exact isNaN_quiet hn
  · rw [heq]
    exact isNaN_canonicalNaN fmt

/-- Filling in a missing result settles it. -/
theorem settled_settle
    (hnone : result = none ↔ (∃ n ∈ operands, isNaN n = true) ∨ Invalid)
    (hsome : ∀ value, result = some value → isNaN value = false) :
    Settled operands Invalid result (settle operands result) := by
  cases hr : result with
  | some value =>
    have hvalue := hsome value hr
    obtain ⟨hoperands, hvalid⟩ : (∀ n ∈ operands, isNaN n = false) ∧ ¬Invalid := by
      simpa [hr] using hnone
    refine ⟨?_, fun _ h => absurd h hvalid, fun _ _ => ⟨rfl, hvalue⟩, ?_, ?_, ?_⟩
    · intro n hn
      have := hoperands n (List.mem_of_find?_eq_some hn)
      simp [List.find?_some hn] at this
    · intro h
      simp [settle, hvalue] at h
    · intro _ h
      simp [settle, hvalue] at h
    · rintro raw rfl
      simp [settle, hvalue]
  | none =>
    have hcause := hnone.1 hr
    have hsettle : settle operands none = nanOf operands := rfl
    rw [hsettle]
    refine ⟨?_, fun h _ => nanOf_of_forall h, ?_, ?_, ?_, ?_⟩
    · intro n hn
      refine ⟨isNaN_nanOf operands, fun i => ?_⟩
      rw [nanOf_of_find? hn, getLsbD_quiet]
    · intro h hvalid
      rcases hcause with ⟨n, hn, hnan⟩ | hinvalid
      · rw [h n hn] at hnan
        exact absurd hnan Bool.false_ne_true
      · exact absurd hinvalid hvalid
    · intro _
      rcases nanOf_cases operands with ⟨n, -, -, heq⟩ | ⟨-, heq⟩
      · rw [heq, getLsbD_quiet]
        simp
      · rw [heq, getLsbD_canonicalNaN]
    · intro hpayload _
      rcases nanOf_cases operands with ⟨n, hn, hnan, heq⟩ | ⟨-, heq⟩
      · rw [heq, mantissa_quiet, hpayload n hn hnan, Nat.or_self]
      · rw [heq, mantissa_canonicalNaN]
    · intro raw hraw
      have hnan : isNaN raw = true := hraw
      rw [if_pos hnan]

end Format

end Lanewise
