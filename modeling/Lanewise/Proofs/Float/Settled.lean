import Lanewise.Instr.Execute
import Lanewise.Proofs.Float.NaN
import Lanewise.Proofs.Float.Overflow

/-!
# NaNs of the float operations

The operations of a float lane settle their IEEE results. `FloatBinary.ieee?` and
`FloatUnary.ieee?` name the IEEE operation behind an operation of a lane. Operations that only
compare, choose an operand by a comparison or change a sign have none.

* `FloatBinary.Invalid`, `FloatUnary.Invalid` : operands without an IEEE result that are not NaNs.
* `minimum?`, `maximum?` : the lesser and the greater of two patterns, in the order in which the
  negative zero comes before the positive one (`precedes`). `min_eq_settle`, `max_eq_settle` :
  `min` and `max` find them, although they combine equal operands bit by bit.
* `FloatShape.lanes_settled` : every lane of a result is settled, and an instruction gives the
  vector of these lanes.
-/

namespace Lanewise

namespace Format

variable {fmt : Format}

/-! ## Data -/

theorem isNaN_eq_false_of_isInfinite {x : fmt.Pattern} (h : isInfinite x = true) :
    isNaN x = false := by
  rw [Bool.eq_false_iff, Ne, isNaN_iff, magnitude_of_isInfinite h]
  omega

theorem units_ne_zero_of_isInfinite {x : fmt.Pattern} (h : isInfinite x = true) : units x ≠ 0 := by
  have hpos := Nat.two_pow_pos fmt.mantissaBits
  have hle := fmt.two_pow_le_infinityBits
  rw [Ne, units_eq_zero_iff, magnitude_of_isInfinite h]
  omega

/-- The class of a pattern, with its datum. -/
theorem datum_cases (x : fmt.Pattern) :
    (isNaN x = true ∧ datum x = .nan) ∨
      (isNaN x = false ∧ isInfinite x = true ∧ units x ≠ 0 ∧ datum x = .infinite (isNegative x)) ∨
      (isNaN x = false ∧ isInfinite x = false ∧ datum x = .finite (isNegative x) (units x)) := by
  unfold datum
  by_cases hinf : isInfinite x = true
  · have hnan := isNaN_eq_false_of_isInfinite hinf
    exact Or.inr (Or.inl ⟨hnan, hinf, units_ne_zero_of_isInfinite hinf, by simp [hnan, hinf]⟩)
  · by_cases hnan : isNaN x = true
    · exact Or.inl ⟨hnan, by simp [hnan]⟩
    · rw [Bool.not_eq_true] at hinf hnan
      exact Or.inr (Or.inr ⟨hnan, hinf, by simp [hnan, hinf]⟩)

/-! ## Rounded results -/

@[simp] theorem isNaN_addFinite (a : Bool) (m : ℕ) (b : Bool) (n : ℕ) :
    isNaN (addFinite fmt a m b n) = false := by
  unfold addFinite
  simp only
  split_ifs
  · exact isNaN_zero _
  · exact isNaN_roundSigned ..

@[simp] theorem isNaN_roundRatio (a : Bool) (m n : ℕ) :
    isNaN (fmt.roundSigned a (fmt.roundRatio m n)) = false :=
  isNaN_roundSigned ..

@[simp] theorem isNaN_roundSqrt (a : Bool) (m : ℕ) :
    isNaN (fmt.roundSigned a (roundSqrt fmt m)) = false :=
  isNaN_roundSigned ..

/-! ## Minimum and maximum -/

/-- The order of the values, in which the negative zero comes before the positive one. -/
def precedes (x y : fmt.Pattern) : Bool :=
  lt x y || eq x y && isNegative x

def minimum? (x y : fmt.Pattern) : Option fmt.Pattern :=
  if isNaN x || isNaN y then none else some (if precedes x y then x else y)

def maximum? (x y : fmt.Pattern) : Option fmt.Pattern :=
  if isNaN x || isNaN y then none else some (if precedes x y then y else x)

theorem value?_of_not_isNaN {x : fmt.Pattern} (h : isNaN x = false) :
    value? x = some (Datum.signed (isNegative x) (units x)) := by
  simp [value?, h, Datum.signed]

theorem not_lt_of_eq {x y : fmt.Pattern} (h : eq x y = true) : lt x y = false := by
  unfold eq related at h
  unfold lt related
  cases hx : value? x <;> cases hy : value? y <;> simp_all

theorem gt_eq_not_lt {x y : fmt.Pattern} (hx : isNaN x = false) (hy : isNaN y = false)
    (h : eq x y = false) : gt x y = !lt x y := by
  rw [eq, related, value?_of_not_isNaN hx, value?_of_not_isNaN hy] at h
  rw [gt, lt, related, related, value?_of_not_isNaN hx, value?_of_not_isNaN hy, ← decide_not,
    decide_eq_decide]
  have hne := beq_eq_false_iff_ne.1 h
  omega

/-- Equal patterns differ at most in the sign of a zero. -/
theorem eq_or_magnitude_eq_zero {x y : fmt.Pattern} (hx : isNaN x = false) (hy : isNaN y = false)
    (h : eq x y = true) : x = y ∨ magnitude x = 0 ∧ magnitude y = 0 := by
  rw [eq, related, value?_of_not_isNaN hx, value?_of_not_isNaN hy] at h
  have hsigned : Datum.signed (isNegative x) (units x) = Datum.signed (isNegative y) (units y) := by
    simpa using h
  by_cases hzero : units x = 0
  · right
    have hzero' : units y = 0 := by
      unfold Datum.signed at hsigned
      split_ifs at hsigned <;> omega
    exact ⟨magnitude_of_units_eq_zero hzero, magnitude_of_units_eq_zero hzero'⟩
  · left
    obtain ⟨hsign, hunits⟩ : isNegative x = isNegative y ∧ units x = units y := by
      unfold Datum.signed at hsigned
      split_ifs at hsigned with hx hy hy
      · exact ⟨hx.trans hy.symm, by omega⟩
      · omega
      · omega
      · rw [Bool.not_eq_true] at hx hy
        exact ⟨hx.trans hy.symm, by omega⟩
    rw [units_eq_magnitudeUnits, units_eq_magnitudeUnits] at hunits
    rw [← pattern_magnitude x, ← pattern_magnitude y, hsign,
      fmt.strictMono_magnitudeUnits.injective hunits]

theorem zero_or_zero (a b : Bool) : fmt.zero a ||| fmt.zero b = fmt.zero (a || b) := by
  cases a <;> cases b <;> simp [zero, pattern]

theorem zero_and_zero (a b : Bool) : fmt.zero a &&& fmt.zero b = fmt.zero (a && b) := by
  cases a <;> cases b <;> simp [zero, pattern]

/-- The two bit operations find the lesser and the greater of equal operands. -/
theorem or_and_of_eq {x y : fmt.Pattern} (hx : isNaN x = false) (hy : isNaN y = false)
    (h : eq x y = true) :
    x ||| y = (if isNegative x then x else y) ∧ x &&& y = (if isNegative x then y else x) := by
  rcases eq_or_magnitude_eq_zero hx hy h with rfl | ⟨hx, hy⟩
  · simp
  · obtain ⟨a, rfl⟩ : ∃ a, x = fmt.zero a := ⟨isNegative x, by rw [zero, ← hx, pattern_magnitude]⟩
    obtain ⟨b, rfl⟩ : ∃ b, y = fmt.zero b := ⟨isNegative y, by rw [zero, ← hy, pattern_magnitude]⟩
    have hsign : isNegative (fmt.zero a) = a := isNegative_pattern a (Nat.two_pow_pos _)
    rw [zero_or_zero, zero_and_zero, hsign]
    cases a <;> cases b <;> simp

theorem min_eq_settle (x y : fmt.Pattern) : min x y = settle [x, y] (minimum? x y) := by
  unfold min minimum?
  by_cases hnan : (isNaN x || isNaN y) = true
  · rw [if_pos hnan, if_pos hnan]
    rfl
  · obtain ⟨hx, hy⟩ : isNaN x = false ∧ isNaN y = false := by simpa using hnan
    rw [if_neg hnan, if_neg hnan, settle, Option.getD_some, precedes]
    by_cases heq : eq x y = true
    · rw [if_pos heq, (or_and_of_eq hx hy heq).1, not_lt_of_eq heq, heq, Bool.true_and,
        Bool.false_or]
    · rw [if_neg heq, Bool.eq_false_iff.2 heq, Bool.false_and, Bool.or_false]

theorem max_eq_settle (x y : fmt.Pattern) : max x y = settle [x, y] (maximum? x y) := by
  unfold max maximum?
  by_cases hnan : (isNaN x || isNaN y) = true
  · rw [if_pos hnan, if_pos hnan]
    rfl
  · obtain ⟨hx, hy⟩ : isNaN x = false ∧ isNaN y = false := by simpa using hnan
    rw [if_neg hnan, if_neg hnan, settle, Option.getD_some, precedes]
    by_cases heq : eq x y = true
    · rw [if_pos heq, (or_and_of_eq hx hy heq).2, not_lt_of_eq heq, heq, Bool.true_and,
        Bool.false_or]
    · rw [Bool.not_eq_true] at heq
      rw [heq, gt_eq_not_lt hx hy heq, Bool.false_and, Bool.or_false]
      cases lt x y <;> rfl

/-! ## Operations on patterns -/

theorem settled_min (x y : fmt.Pattern) : Settled [x, y] False (minimum? x y) (min x y) := by
  rw [min_eq_settle]
  refine settled_settle ?_ ?_
  · cases hx : isNaN x <;> cases hy : isNaN y <;> simp [minimum?, hx, hy]
  · intro value h
    unfold minimum? at h
    split_ifs at h <;> simp_all

theorem settled_max (x y : fmt.Pattern) : Settled [x, y] False (maximum? x y) (max x y) := by
  rw [max_eq_settle]
  refine settled_settle ?_ ?_
  · cases hx : isNaN x <;> cases hy : isNaN y <;> simp [maximum?, hx, hy]
  · intro value h
    unfold maximum? at h
    split_ifs at h <;> simp_all

/-- Two infinities of different signs have no sum. -/
theorem settled_add (x y : fmt.Pattern) :
    Settled [x, y] (isInfinite x ∧ isInfinite y ∧ isNegative x ≠ isNegative y) (sum? x y)
      (add x y) := by
  refine settled_settle ?_ ?_
  · rcases datum_cases x with ⟨hx, dx⟩ | ⟨hx, ix, -, dx⟩ | ⟨hx, ix, dx⟩ <;>
      rcases datum_cases y with ⟨hy, dy⟩ | ⟨hy, iy, -, dy⟩ | ⟨hy, iy, dy⟩ <;>
        simp [sum?, *]
  · intro value h
    unfold sum? at h
    split at h <;> (try split_ifs at h) <;> cases h <;> simp

/-- Two infinities of the same sign have no difference. -/
theorem settled_sub (x y : fmt.Pattern) :
    Settled [x, y] (isInfinite x ∧ isInfinite y ∧ isNegative x = isNegative y) (difference? x y)
      (sub x y) := by
  refine settled_settle ?_ ?_
  · rcases datum_cases x with ⟨hx, dx⟩ | ⟨hx, ix, -, dx⟩ | ⟨hx, ix, dx⟩ <;>
      rcases datum_cases y with ⟨hy, dy⟩ | ⟨hy, iy, -, dy⟩ | ⟨hy, iy, dy⟩ <;>
        simp [difference?, *]
  · intro value h
    unfold difference? at h
    split at h <;> (try split_ifs at h) <;> cases h <;> simp

/-- An infinity and a zero have no product. -/
theorem settled_mul (x y : fmt.Pattern) :
    Settled [x, y] (isInfinite x ∧ units y = 0 ∨ units x = 0 ∧ isInfinite y) (product? x y)
      (mul x y) := by
  refine settled_settle ?_ ?_
  · rcases datum_cases x with ⟨hx, dx⟩ | ⟨hx, ix, ux, dx⟩ | ⟨hx, ix, dx⟩ <;>
      rcases datum_cases y with ⟨hy, dy⟩ | ⟨hy, iy, uy, dy⟩ | ⟨hy, iy, dy⟩ <;>
        simp [product?, *]
  · intro value h
    unfold product? at h
    split at h <;> (try split_ifs at h) <;> cases h <;> simp

/-- Two infinities have no quotient, nor have two zeros. -/
theorem settled_div (x y : fmt.Pattern) :
    Settled [x, y] (isInfinite x ∧ isInfinite y ∨ units x = 0 ∧ units y = 0) (quotient? x y)
      (div x y) := by
  refine settled_settle ?_ ?_
  · rcases datum_cases x with ⟨hx, dx⟩ | ⟨hx, ix, ux, dx⟩ | ⟨hx, ix, dx⟩ <;>
      rcases datum_cases y with ⟨hy, dy⟩ | ⟨hy, iy, uy, dy⟩ | ⟨hy, iy, dy⟩ <;>
        simp [quotient?, apply_ite (· = none), and_comm, *]
  · intro value h
    unfold quotient? at h
    split at h <;> (try split_ifs at h) <;> cases h <;> simp

/-- Of the negative numbers only the zero has a root. -/
theorem settled_sqrt (x : fmt.Pattern) :
    Settled [x] (isNegative x ∧ units x ≠ 0) (root? x) (sqrt x) := by
  refine settled_settle ?_ ?_
  · rcases datum_cases x with ⟨hx, dx⟩ | ⟨hx, ix, ux, dx⟩ | ⟨hx, ix, dx⟩ <;>
      simp [root?, apply_ite (· = none), and_comm, *]
  · intro value h
    unfold root? at h
    split at h <;> (try split_ifs at h) <;> cases h <;> simp

theorem settled_integral (mode : IntegralMode) (x : fmt.Pattern) :
    Settled [x] False (integral? mode x) (integral mode x) := by
  refine settled_settle ?_ ?_
  · rcases datum_cases x with ⟨hx, dx⟩ | ⟨hx, ix, ux, dx⟩ | ⟨hx, ix, dx⟩ <;> simp [integral?, *]
  · intro value h
    unfold integral? at h
    split at h <;> cases h <;> simp

end Format

/-! ## Operations of a lane -/

variable {fmt : Format}

namespace FloatUnary

/-- The IEEE operation, of the operations that compute. -/
def ieee? : FloatUnary → Option (fmt.Pattern → Option fmt.Pattern)
  | sqrt => some Format.root?
  | integral mode => some (Format.integral? mode)
  | abs | neg => none

/-- Operands that are not NaNs and have no IEEE result. -/
def Invalid (op : FloatUnary) (x : fmt.Pattern) : Prop :=
  match op with
  | sqrt => Format.isNegative x ∧ Format.units x ≠ 0
  | abs | neg | integral _ => False

theorem settled_lane {op : FloatUnary} {result? : fmt.Pattern → Option fmt.Pattern}
    (h : op.ieee? = some result?) (x : fmt.Pattern) :
    Format.Settled [x] (op.Invalid x) (result? x) (op.lane x) := by
  cases op with
  | abs => cases h
  | neg => cases h
  | sqrt =>
    obtain rfl := Option.some.inj h
    exact Format.settled_sqrt x
  | integral mode =>
    obtain rfl := Option.some.inj h
    exact Format.settled_integral mode x

end FloatUnary

namespace FloatBinary

/-- The IEEE operation, of the operations that compute. -/
def ieee? : FloatBinary → Option (fmt.Pattern → fmt.Pattern → Option fmt.Pattern)
  | add => some Format.sum?
  | sub => some Format.difference?
  | mul => some Format.product?
  | div => some Format.quotient?
  | min => some Format.minimum?
  | max => some Format.maximum?
  | compare _ | pmin | pmax => none

/-- Operands that are not NaNs and have no IEEE result. -/
def Invalid (op : FloatBinary) (x y : fmt.Pattern) : Prop :=
  match op with
  | add => Format.isInfinite x ∧ Format.isInfinite y ∧ Format.isNegative x ≠ Format.isNegative y
  | sub => Format.isInfinite x ∧ Format.isInfinite y ∧ Format.isNegative x = Format.isNegative y
  | mul => Format.isInfinite x ∧ Format.units y = 0 ∨ Format.units x = 0 ∧ Format.isInfinite y
  | div => Format.isInfinite x ∧ Format.isInfinite y ∨ Format.units x = 0 ∧ Format.units y = 0
  | min | max | compare _ | pmin | pmax => False

theorem settled_lane {op : FloatBinary} {result? : fmt.Pattern → fmt.Pattern → Option fmt.Pattern}
    (h : op.ieee? = some result?) (x y : fmt.Pattern) :
    Format.Settled [x, y] (op.Invalid x y) (result? x y) (op.lane x y) := by
  cases op with
  | compare relation => cases h
  | pmin => cases h
  | pmax => cases h
  | add =>
    obtain rfl := Option.some.inj h
    exact Format.settled_add x y
  | sub =>
    obtain rfl := Option.some.inj h
    exact Format.settled_sub x y
  | mul =>
    obtain rfl := Option.some.inj h
    exact Format.settled_mul x y
  | div =>
    obtain rfl := Option.some.inj h
    exact Format.settled_div x y
  | min =>
    obtain rfl := Option.some.inj h
    exact Format.settled_min x y
  | max =>
    obtain rfl := Option.some.inj h
    exact Format.settled_max x y

end FloatBinary

/-! ## Vectors -/

namespace FloatShape

/-- Every lane of a result is the IEEE result or the NaN that the operands determine, and an
instruction gives the vector of these lanes. -/
theorem lanes_settled (s : FloatShape) (a b : Vec) :
    (∀ (op : FloatUnary) (result? : s.format.Pattern → Option s.format.Pattern),
      op.ieee? = some result? → ∀ k < s.lanes,
        Format.Settled [a.lane s k] (@FloatUnary.Invalid s.format op (a.lane s k))
          (result? (a.lane s k)) ((s.unary op a).lane s k)) ∧
    (∀ (op : FloatBinary)
      (result? : s.format.Pattern → s.format.Pattern → Option s.format.Pattern),
      op.ieee? = some result? → ∀ k < s.lanes,
        Format.Settled [a.lane s k, b.lane s k]
          (@FloatBinary.Invalid s.format op (a.lane s k) (b.lane s k))
          (result? (a.lane s k) (b.lane s k)) ((s.binary op a b).lane s k)) ∧
    (∀ op : FloatUnary, (Instr.floatUnary s op).execute [.v128 a] = .ok (.v128 (s.unary op a))) ∧
    (∀ op : FloatBinary, (Instr.floatBinary s op).execute [.v128 a, .v128 b] =
      .ok (.v128 (s.binary op a b))) := by
  refine ⟨fun op result? h k hk => ?_, fun op result? h k hk => ?_, fun op => rfl, fun op => rfl⟩
  · rw [lane_unary s op a k hk]
    exact op.settled_lane h _
  · rw [lane_binary s op a b k hk]
    exact op.settled_lane h _ _

/-- In the last lane a negative signalling NaN wins over a quiet one, and the root of minus one is
the canonical NaN. -/
theorem lanes_settled_last :
    3 < lanes .f32x4 ∧
      (∀ i, ((f32x4.binary .mul (Vec.splat f32x4 0xFFA00000#32)
        (Vec.splat f32x4 0x7FC00001#32)).lane f32x4 3).getLsbD i =
          ((0xFFA00000#32).getLsbD i || decide (i = 22))) ∧
      (f32x4.unary .sqrt (Vec.splat f32x4 0xBF800000#32)).lane f32x4 3 =
        Format.binary32.canonicalNaN := by
  have hlast : 3 < lanes .f32x4 := by decide
  refine ⟨hlast, ?_, ?_⟩
  · have h := (lanes_settled f32x4 (Vec.splat f32x4 0xFFA00000#32)
      (Vec.splat f32x4 0x7FC00001#32)).2.1 .mul Format.product? rfl 3 hlast
    rw [Vec.lane_splat _ _ _ hlast, Vec.lane_splat _ _ _ hlast] at h
    exact (h.propagated 0xFFA00000#32 (by decide)).2
  · have h := (lanes_settled f32x4 (Vec.splat f32x4 0xBF800000#32)
      (Vec.splat f32x4 0xBF800000#32)).1 .sqrt Format.root? rfl 3 hlast
    rw [Vec.lane_splat _ _ _ hlast] at h
    refine h.canonical ?_ ⟨by decide, ?_⟩
    · intro n hn
      rw [List.mem_singleton.1 hn]
      decide
    · rw [Ne, Format.units_eq_zero_iff]
      decide

end FloatShape

end Lanewise
