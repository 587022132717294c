import Lanewise.Instr.Execute
import Lanewise.Proofs.Integer.Reading

/-!
# Executions are validated

An execution ends in a value exactly if the number of operands, the immediates and the types of
the operands are right, and otherwise in the error of the first of these that is wrong. It never
ends in a fault, since an operation only faults on an immediate that the checks refuse. The value
has the type of the signature and, where it counts or widens something, its range
(`Instr.execute_validates`).
-/

namespace Lanewise

/-! ## Operands -/

/-- Values of the right types are read. -/
theorem Args.read_of_eq {types : List ValueType} {values : List Value}
    (h : values.map Value.type = types) : ∃ args, Args.read types values = .ok args := by
  subst h
  induction values with
  | nil => exact ⟨(), rfl⟩
  | cons v vs ih =>
    obtain ⟨args, hargs⟩ := ih
    obtain ⟨x, hx⟩ := Option.isSome_iff_exists.1 ((Value.isSome_as?_iff v.type v).2 rfl)
    refine ⟨(x, args), ?_⟩
    change Args.read (v.type :: vs.map Value.type) (v :: vs) = _
    simp only [read, hx, hargs]

/-- As many values as types, but of other types, are refused. -/
theorem Args.read_of_ne {types : List ValueType} {values : List Value}
    (hlen : values.length = types.length) (hne : values.map Value.type ≠ types) :
    ∃ expected found,
      Args.read types values = .error (.rejected (.operandType expected found)) := by
  induction types generalizing values with
  | nil => exact absurd (by simpa using hlen) hne
  | cons t ts ih =>
    obtain _ | ⟨v, vs⟩ := values
    · simp at hlen
    · cases hv : v.as? t with
      | none => exact ⟨t, v.type, by simp only [read, hv]⟩
      | some x =>
        have htype : v.type = t := (Value.isSome_as?_iff t v).1 (by rw [hv]; rfl)
        have hrest : vs.map Value.type ≠ ts := fun h => hne (by rw [List.map_cons, htype, h])
        obtain ⟨expected, found, h⟩ := ih (by simpa using hlen) hrest
        exact ⟨expected, found, by simp only [read, hv, h]⟩

namespace Instr

variable (i : Instr) (inputs : List Value)

/-! ## Immediates -/

/-- The indices of a shuffle. -/
def shuffleIndices : Instr → List UInt8
  | shuffle lanes => lanes.toList
  | _ => []

/-- The lane exists, and every index of a shuffle names a byte of two vectors. -/
def ValidImmediates : Prop :=
  (∀ lane ∈ i.laneImmediate?, ∀ s ∈ i.shape?, lane.toNat < s.lanes) ∧
    ∀ index ∈ i.shuffleIndices, index.toNat < 32

instance : Decidable i.ValidImmediates :=
  inferInstanceAs (Decidable (_ ∧ _))

theorem checkLane_cases :
    (i.checkLane = .ok () ∧ ∀ lane ∈ i.laneImmediate?, ∀ s ∈ i.shape?, lane.toNat < s.lanes) ∨
      ∃ lane ∈ i.laneImmediate?, ∃ s ∈ i.shape?, ¬lane.toNat < s.lanes ∧
        i.checkLane = .error (.laneIndex lane s) := by
  rw [checkLane]
  cases hlane : i.laneImmediate? with
  | none => exact Or.inl ⟨rfl, by simp⟩
  | some lane =>
    cases hs : i.shape? with
    | none => exact Or.inl ⟨rfl, by simp⟩
    | some s =>
      by_cases h : lane.toNat < s.lanes
      · exact Or.inl ⟨if_pos h, by simpa using h⟩
      · exact Or.inr ⟨lane, rfl, s, rfl, h, if_neg h⟩

theorem checkShuffle_cases :
    (i.checkShuffle = .ok () ∧ ∀ index ∈ i.shuffleIndices, index.toNat < 32) ∨
      ∃ index ∈ i.shuffleIndices, ¬index.toNat < 32 ∧
        i.checkShuffle = .error (.shuffleIndex index) := by
  cases i with
  | shuffle lanes =>
    simp only [checkShuffle, shuffleIndices]
    cases hbad : Vec.badIndex? lanes with
    | none => exact Or.inl ⟨rfl, by simpa [Vec.badIndex?] using hbad⟩
    | some index =>
      have hindex := List.find?_some hbad
      exact Or.inr ⟨index, List.mem_of_find?_eq_some hbad, by simpa using hindex, rfl⟩
  | _ => exact Or.inl ⟨rfl, by simp [shuffleIndices]⟩

/-! ## Checks -/

theorem check_of_count (h : inputs.length ≠ i.operandCount) :
    i.check inputs = .error (.operandCount i.operandCount inputs.length) := by
  rw [check, checkCount, if_neg h]
  rfl

theorem check_of_valid (hlen : inputs.length = i.operandCount) (h : i.ValidImmediates) :
    i.check inputs = .ok () := by
  rcases i.checkLane_cases with ⟨hlane, -⟩ | ⟨lane, hlane, s, hs, hbad, -⟩
  · rcases i.checkShuffle_cases with ⟨hshuffle, -⟩ | ⟨index, hindex, hbad, -⟩
    · rw [check, checkCount, if_pos hlen, hlane, hshuffle]
      rfl
    · exact absurd (h.2 index hindex) hbad
  · exact absurd (h.1 lane hlane s hs) hbad

/-- An immediate that names nothing is refused, whichever kind it is. -/
theorem check_of_not_valid (hlen : inputs.length = i.operandCount) (h : ¬i.ValidImmediates) :
    ∃ reason, i.check inputs = .error reason ∧ reason.toError = .laneIndexOutOfRange := by
  rcases i.checkLane_cases with ⟨hlane, hlanes⟩ | ⟨lane, -, s, -, -, hlane⟩
  · rcases i.checkShuffle_cases with ⟨-, hindices⟩ | ⟨index, -, -, hshuffle⟩
    · exact absurd ⟨hlanes, hindices⟩ h
    · refine ⟨.shuffleIndex index, ?_, rfl⟩
      rw [check, checkCount, if_pos hlen, hlane, hshuffle]
      rfl
  · refine ⟨.laneIndex lane s, ?_, rfl⟩
    rw [check, checkCount, if_pos hlen, hlane]
    rfl

/-! ## Results -/

/-- The least and the greatest scalar result, for the instructions that count or widen. -/
def scalarRange? : Instr → Option (ℤ × ℤ)
  | anyTrue | allTrue _ => some (0, 1)
  | bitmask s => some (0, 2 ^ s.lanes - 1)
  | extractLane (.int s) (some sign) _ _ =>
      some (sign.least s.laneBits, sign.greatest s.laneBits)
  | _ => none

/-- A result of the right type, in the range of the instruction if it has one. -/
structure IsResult (r : Value) : Prop where
  type : r.type = i.result
  inRange : ∀ range ∈ i.scalarRange?,
    ∃ x : BitVec 32, r = .i32 x ∧ range.1 ≤ x.toInt ∧ x.toInt ≤ range.2

theorem isResult_of_none {i : Instr} (h : i.scalarRange? = none) (x : i.result.Carrier) :
    i.IsResult (Value.of i.result x) := by
  refine ⟨Value.type_of _ _, fun range hrange => ?_⟩
  rw [h] at hrange
  cases hrange

theorem isResult_of_some {i : Instr} {least greatest : ℤ}
    (h : i.scalarRange? = some (least, greatest)) (htype : i.result = .i32) {x : BitVec 32}
    (hx : least ≤ x.toInt ∧ x.toInt ≤ greatest) : i.IsResult (.i32 x) := by
  refine ⟨htype.symm, fun range hrange => ⟨x, rfl, ?_⟩⟩
  rw [h, Option.mem_some_iff] at hrange
  exact hrange ▸ hx

theorem toInt_truth (b : Bool) : 0 ≤ (truth b).toInt ∧ (truth b).toInt ≤ 1 := by
  cases b <;> decide

theorem toInt_bitmask (s : IntShape) (v : Vec) :
    0 ≤ (BitVec.ofNat 32 (s.bitmask v)).toInt ∧
      (BitVec.ofNat 32 (s.bitmask v)).toInt ≤ 2 ^ s.lanes - 1 := by
  have hpow : 2 ^ s.lanes ≤ 2 ^ 16 := Nat.pow_le_pow_right Nat.two_pos (by cases s <;> decide)
  have hbits : s.bitmask v < 2 ^ s.lanes := Nat.lt_pow_two_of_testBit _ fun i hi => by
    rw [s.testBit_bitmask, decide_eq_false (not_lt.2 hi), Bool.false_and]
  have hnat : (BitVec.ofNat 32 (s.bitmask v)).toNat = s.bitmask v := by
    rw [BitVec.toNat_ofNat, Nat.mod_eq_of_lt (by omega)]
  have hint : (s.bitmask v : ℤ) < 2 ^ s.lanes := by exact_mod_cast hbits
  rw [BitVec.toInt_eq_toNat_of_lt (by omega), hnat]
  omega

theorem isResult_extractLane (s : Shape) (sign : Option Signedness) (lane : UInt8)
    (widened : sign.isSome = s.isNarrow) (x : BitVec s.laneBits) :
    (extractLane s sign lane widened).IsResult
      (Value.of s.scalar (s.scalarOfLane (sign.getD .unsigned) x)) := by
  match s, sign, widened, x with
  | .float s, sign, widened, x => exact isResult_of_none rfl _
  | .int s, none, widened, x => exact isResult_of_none rfl _
  | .int .i8x16, some sign, widened, x =>
    exact isResult_of_some rfl rfl (sign.extend_inRange (by decide) x)
  | .int .i16x8, some sign, widened, x =>
    exact isResult_of_some rfl rfl (sign.extend_inRange (by decide) x)

/-- With immediates that name what is there, an operation does not fault. -/
theorem run_of_valid {i : Instr} (h : i.ValidImmediates) (args : Args i.operands) :
    ∃ x, i.run args = .ok x ∧ i.IsResult (Value.of i.result x) := by
  cases i with
  | anyTrue => exact ⟨_, rfl, isResult_of_some rfl rfl (toInt_truth _)⟩
  | allTrue s => exact ⟨_, rfl, isResult_of_some rfl rfl (toInt_truth _)⟩
  | bitmask s => exact ⟨_, rfl, isResult_of_some rfl rfl (toInt_bitmask s _)⟩
  | extractLane s sign lane widened =>
    have hlane : lane.toNat < s.lanes := h.1 lane rfl s rfl
    have hrun : (extractLane s sign lane widened).run args = _ :=
      congrArg (Except.map _) (Vec.extractLane_eq_ok s lane.toNat args.1 hlane)
    exact ⟨_, hrun, isResult_extractLane s sign lane widened _⟩
  | replaceLane s lane =>
    have hlane : lane.toNat < s.lanes := h.1 lane rfl s rfl
    exact ⟨_, dif_pos hlane, isResult_of_none rfl _⟩
  | shuffle lanes =>
    have hgood : Vec.badIndex? lanes = none := by
      simpa [Vec.badIndex?, shuffleIndices] using h.2
    obtain ⟨v, hv⟩ : ∃ v, Vec.shuffle lanes args.1 args.2.1 = .ok v :=
      ⟨_, by rw [Vec.shuffle, hgood]⟩
    exact ⟨v, hv, isResult_of_none rfl _⟩
  | _ => exact ⟨_, rfl, isResult_of_none rfl _⟩

/-! ## Executions -/

/-- The error of the first check that fails, if one does. -/
def firstError : Error :=
  if inputs.length ≠ i.operandCount then
    ⟨.validation, 5010, "SIMD operand count does not match the instruction"⟩
  else if ¬i.ValidImmediates then ⟨.validation, 8703, "Lane index out of range"⟩
  else ⟨.type, 1009, "SIMD operand has the wrong value type"⟩

/-- All checks succeed. -/
def Accepts : Prop :=
  inputs.length = i.operandCount ∧ i.ValidImmediates ∧ inputs.map Value.type = i.operands

theorem execute_of_check {reason : Rejection} (h : i.check inputs = .error reason) :
    i.execute inputs = .error (.rejected reason) := by
  rw [execute, h]
  rfl

/-- If the checks succeed, an execution returns what the operation does. -/
theorem execute_of_run {i : Instr} {inputs : List Value} {args : Args i.operands}
    {x : i.result.Carrier} (hlen : inputs.length = i.operandCount) (hvalid : i.ValidImmediates)
    (hargs : Args.read i.operands inputs = .ok args) (hrun : i.run args = .ok x) :
    i.execute inputs = .ok (Value.of i.result x) := by
  rw [execute, i.check_of_valid inputs hlen hvalid, hargs]
  change (do let x ← (i.run args).mapError Failure.fault; pure (Value.of i.result x)) = _
  rw [hrun]
  rfl

/-- Right operands are read and the operation runs on them. -/
theorem execute_of_accepts (h : i.Accepts inputs) :
    ∃ r, i.execute inputs = .ok r ∧ i.IsResult r := by
  obtain ⟨hlen, hvalid, htypes⟩ := h
  obtain ⟨args, hargs⟩ := Args.read_of_eq htypes
  obtain ⟨x, hx, hresult⟩ := run_of_valid hvalid args
  exact ⟨_, execute_of_run hlen hvalid hargs hx, hresult⟩

theorem execute_of_not_accepts (h : ¬i.Accepts inputs) :
    ∃ reason, i.execute inputs = .error (.rejected reason) ∧
      reason.toError = i.firstError inputs := by
  by_cases hlen : inputs.length = i.operandCount
  · by_cases hvalid : i.ValidImmediates
    · have htypes : inputs.map Value.type ≠ i.operands := fun htypes => h ⟨hlen, hvalid, htypes⟩
      have hcount := hlen.trans i.length_operands.symm
      obtain ⟨expected, found, hread⟩ := Args.read_of_ne hcount htypes
      refine ⟨.operandType expected found, ?_, ?_⟩
      · rw [execute, i.check_of_valid inputs hlen hvalid, hread]
        rfl
      · rw [firstError, if_neg (not_not.2 hlen), if_neg (not_not.2 hvalid)]
        rfl
    · obtain ⟨reason, hcheck, herror⟩ := i.check_of_not_valid inputs hlen hvalid
      refine ⟨reason, i.execute_of_check inputs hcheck, ?_⟩
      rw [firstError, if_neg (not_not.2 hlen), if_pos hvalid]
      exact herror
  · refine ⟨_, i.execute_of_check inputs (i.check_of_count inputs hlen), ?_⟩
    rw [firstError, if_pos hlen]
    rfl

/-- An execution never faults. It ends in a value exactly if the operands are as many as the
instruction takes, its immediates are valid and the operands have the types of its signature;
otherwise in the error of the first of these checks that fails. A value has the type of the
signature and lies in the range of the instruction. -/
theorem execute_validates :
    (∀ fault, i.execute inputs ≠ .error (.fault fault)) ∧
    ((∃ r, i.execute inputs = .ok r) ↔
      inputs.length = i.operandCount ∧ i.ValidImmediates ∧
        inputs.map Value.type = i.operands) ∧
    (∀ reason, i.execute inputs = .error (.rejected reason) →
      reason.toError = i.firstError inputs) ∧
    (∀ r, i.execute inputs = .ok r → i.IsResult r) := by
  by_cases h : i.Accepts inputs
  · obtain ⟨r, hr, hresult⟩ := i.execute_of_accepts inputs h
    rw [hr]
    refine ⟨nofun, iff_of_true ⟨r, rfl⟩ h, nofun, ?_⟩
    rintro _ ⟨⟩
    exact hresult
  · obtain ⟨reason, hreason, herror⟩ := i.execute_of_not_accepts inputs h
    rw [hreason]
    refine ⟨nofun, iff_of_false nofun h, ?_, nofun⟩
    rintro _ ⟨⟩
    exact herror

/-- The lowest byte value is accepted and extracted with its sign. -/
theorem execute_validates_extractLane :
    (extractLane IntShape.i8x16 (some .signed) 15 rfl).IsResult (.i32 (-128)) := by
  refine (execute_validates (extractLane IntShape.i8x16 (some .signed) 15 rfl)
    [.v128 (Vec.filled (-128))]).2.2.2 _ ?_
  rfl

end Instr

end Lanewise
