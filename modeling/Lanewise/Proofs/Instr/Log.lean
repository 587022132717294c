import Lanewise.Instr.Log
import Lanewise.Proofs.Instr.Validation

/-!
# The log explains the result

An execution that goes through its checks and operands one after the other, each with a record if
it refuses, has the result of the execution (`Instr.result_executeLogged`). A part of it leaves
the record of its own rejection and nothing else (`Logged.Reports`), and so does the whole, since
what follows a rejection is not reached.

`Instr.Explains` says what the message of an error has to name : the numbers of operands, the
immediate that is out of range, or the first operand of a wrong type.
`Instr.log_explains` : the log is the trace record, followed by nothing if there is a value and by
one debug record with such a message if there is an error.
-/

namespace Lanewise

/-! ## Failures -/

theorem bind_eq_error_iff {ε α β : Type} {x : Except ε α} {f : α → Except ε β} {e : ε} :
    (x >>= f) = .error e ↔ x = .error e ∨ ∃ a, x = .ok a ∧ f a = .error e := by
  cases x with
  | error e => simp [bind, Except.bind]
  | ok a => simp [bind, Except.bind]

theorem mapError_eq_error_iff {ε δ α : Type} {x : Except ε α} {f : ε → δ} {e : δ} :
    x.mapError f = .error e ↔ ∃ e', x = .error e' ∧ f e' = e := by
  cases x with
  | error e' => simp [Except.mapError]
  | ok a => simp [Except.mapError]

/-! ## Operands -/

theorem ValueType.name_injective : Function.Injective ValueType.name := by
  intro s t h
  cases s <;> cases t <;> simp_all [name]

/-- The operand that a list of values is refused for is the first one of a wrong type. -/
theorem Args.exists_of_read_eq_rejected {types : List ValueType} {values : List Value}
    {reason : Rejection} (h : Args.read types values = .error (.rejected reason)) :
    ∃ before found after expected rest, values = before ++ found :: after ∧
      types = before.map Value.type ++ expected :: rest ∧ expected ≠ found.type ∧
      reason = .operandType expected found.type := by
  induction types generalizing values with
  | nil => cases h
  | cons t ts ih =>
    obtain _ | ⟨v, vs⟩ := values
    · cases h
    · cases hv : v.as? t with
      | none =>
        simp only [read, hv] at h
        cases h
        have hne : t ≠ v.type := fun heq => by
          have hsome := (Value.isSome_as?_iff t v).2 heq.symm
          rw [hv] at hsome
          cases hsome
        exact ⟨[], v, vs, t, ts, rfl, rfl, hne, rfl⟩
      | some x =>
        have htype : v.type = t := (Value.isSome_as?_iff t v).1 (by rw [hv]; rfl)
        cases hrest : Args.read ts vs with
        | error failure =>
          simp only [read, hv, hrest] at h
          cases h
          obtain ⟨before, found, after, expected, rest, rfl, rfl, hne, rfl⟩ := ih hrest
          exact ⟨v :: before, found, after, expected, rest, rfl, by rw [← htype]; rfl, hne, rfl⟩
        | ok args =>
          simp only [read, hv, hrest] at h
          cases h

namespace Instr

variable (i : Instr) (inputs : List Value)

/-! ## Results -/

theorem result_checked {α : Type} (check : Except Rejection α) :
    (i.checked check).result = check.mapError .rejected := by
  cases check <;> rfl

theorem result_readOperands (types : List ValueType) (values : List Value) :
    (i.readOperands types values).result = Args.read types values := by
  induction types generalizing values with
  | nil => rfl
  | cons t ts ih =>
    obtain _ | ⟨v, vs⟩ := values
    · rfl
    · rw [readOperands, Logged.result_bind, readOperand, result_checked, Args.read]
      cases v.as? t with
      | none => rfl
      | some x =>
        change (i.readOperands ts vs >>= _).result = _
        rw [Logged.result_bind, ih]
        cases Args.read ts vs <;> rfl

/-- The records do not change the result. -/
theorem result_executeLogged : (i.executeLogged inputs).result = i.execute inputs := by
  rw [executeLogged, execute, check]
  simp only [Logged.result_bind, result_checked, result_readOperands]
  cases i.checkCount inputs with
  | error reason => rfl
  | ok =>
    cases i.checkLane with
    | error reason => rfl
    | ok => cases i.checkShuffle <;> rfl

/-! ## Records -/

/-- The record of a rejection, if a computation ended in one. -/
def rejectionRecords {α : Type} : Except Failure α → List Record
  | .error (.rejected reason) => [reason.record i]
  | _ => []

end Instr

namespace Logged

variable {i : Instr} {α β : Type} {x : Logged α} {f : α → Logged β}

/-- The computation leaves the record of its rejection and no other. -/
def Reports (i : Instr) (x : Logged α) : Prop :=
  x.records = i.rejectionRecords x.result

theorem Reports.bind (hx : x.Reports i) (hf : ∀ a, (f a).Reports i) : (x >>= f).Reports i := by
  obtain ⟨records, e | a⟩ := x
  · cases e <;> exact hx
  · obtain rfl : records = [] := hx
    exact hf a

end Logged

namespace Instr

open Logged

variable (i : Instr) (inputs : List Value)

theorem reports_pure {α : Type} (a : α) : (pure a : Logged α).Reports i :=
  rfl

theorem reports_checked {α : Type} (check : Except Rejection α) : (i.checked check).Reports i := by
  cases check <;> rfl

theorem reports_fault {α : Type} (x : Except Fault α) :
    (silent (x.mapError .fault)).Reports i := by
  cases x <;> rfl

theorem reports_readOperands (types : List ValueType) (values : List Value) :
    (i.readOperands types values).Reports i := by
  induction types generalizing values with
  | nil => exact i.reports_pure ()
  | cons t ts ih =>
    obtain _ | ⟨v, vs⟩ := values
    · exact i.reports_fault (.error .missingOperand)
    · exact (i.reports_checked _).bind fun x => (ih vs).bind fun rest => i.reports_pure (x, rest)

/-- After the trace record, an execution leaves the record of its rejection and no other. -/
theorem log_eq : i.log inputs = i.traceRecord inputs :: i.rejectionRecords (i.execute inputs) := by
  rw [← result_executeLogged]
  refine congrArg (i.traceRecord inputs :: ·) (?_ : Reports i _)
  exact (i.reports_checked _).bind fun _ => (i.reports_checked _).bind fun _ =>
    (i.reports_checked _).bind fun _ => (i.reports_readOperands _ _).bind fun args =>
      (i.reports_fault _).bind fun x => i.reports_pure (Value.of i.result x)

/-! ## Rejections -/

/-- A message that says what an error of the execution is about. -/
inductive Explains (i : Instr) (inputs : List Value) : Error → String → Prop
  | operandCount (h : inputs.length ≠ i.operandCount) :
      Explains i inputs
        ⟨.validation, 5010, "SIMD operand count does not match the instruction"⟩
        (i.debug ++ " expects " ++ toString i.operandCount ++ " operand(s), got " ++
          toString inputs.length)
  | laneIndex {lane : UInt8} {s : Shape} (hlane : i.laneImmediate? = some lane)
      (hs : i.shape? = some s) (h : s.lanes ≤ lane.toNat) :
      Explains i inputs ⟨.validation, 8703, "Lane index out of range"⟩
        (i.debug ++ ": lane " ++ toString lane.toNat ++ " out of range for " ++ s.name)
  | shuffleIndex {before after : List UInt8} {index : UInt8}
      (hsplit : i.shuffleIndices = before ++ index :: after)
      (hbefore : ∀ earlier ∈ before, earlier.toNat < 32) (h : 32 ≤ index.toNat) :
      Explains i inputs ⟨.validation, 8703, "Lane index out of range"⟩
        ("i8x16.shuffle: lane " ++ toString index.toNat ++ " out of range")
  | operandType {before after : List Value} {found : Value} {expected : ValueType}
      {rest : List ValueType} (hinputs : inputs = before ++ found :: after)
      (hoperands : i.operands = before.map Value.type ++ expected :: rest)
      (h : expected.name ≠ found.type.name) :
      Explains i inputs ⟨.type, 1009, "SIMD operand has the wrong value type"⟩
        ("expected " ++ expected.name ++ " operand, found " ++ found.type.name)

variable {i inputs} {reason : Rejection}

theorem explains_of_checkCount (h : i.checkCount inputs = .error reason) :
    i.Explains inputs reason.toError (reason.record i).message := by
  unfold checkCount at h
  split at h
  · cases h
  · next hlen =>
    cases h
    exact .operandCount hlen

theorem explains_of_checkLane (h : i.checkLane = .error reason) :
    i.Explains inputs reason.toError (reason.record i).message := by
  rcases i.checkLane_cases with ⟨hok, -⟩ | ⟨lane, hlane, s, hs, hbad, herror⟩
  · cases hok.symm.trans h
  · cases herror.symm.trans h
    exact .laneIndex hlane hs (Nat.le_of_not_lt hbad)

/-- The index that a shuffle is refused for is the first one that is out of range. -/
theorem explains_of_checkShuffle (h : i.checkShuffle = .error reason) :
    i.Explains inputs reason.toError (reason.record i).message := by
  cases i with
  | shuffle lanes =>
    simp only [checkShuffle] at h
    split at h
    · next index hbad =>
      cases h
      obtain ⟨hindex, before, after, hsplit, hbefore⟩ := List.find?_eq_some_iff_append.1 hbad
      exact .shuffleIndex hsplit (fun j hj => by simpa using hbefore j hj) (by simpa using hindex)
    · cases h
  | _ => cases h

theorem explains_of_read (h : Args.read i.operands inputs = .error (.rejected reason)) :
    i.Explains inputs reason.toError (reason.record i).message := by
  obtain ⟨before, found, after, expected, rest, hinputs, hoperands, hne, rfl⟩ :=
    Args.exists_of_read_eq_rejected h
  exact .operandType hinputs hoperands (ValueType.name_injective.ne hne)

/-- The debug record of a rejection says what was wrong. -/
theorem explains_of_rejected (h : i.execute inputs = .error (.rejected reason)) :
    i.Explains inputs reason.toError (reason.record i).message := by
  rw [execute, bind_eq_error_iff, mapError_eq_error_iff] at h
  rcases h with ⟨reason', hcheck, hreason⟩ | ⟨_, -, h⟩
  · obtain rfl : reason' = reason := by simpa using hreason
    simp only [check, bind_eq_error_iff] at hcheck
    rcases hcheck with hcount | ⟨_, -, hlane | ⟨_, -, hshuffle⟩⟩
    · exact explains_of_checkCount hcount
    · exact explains_of_checkLane hlane
    · exact explains_of_checkShuffle hshuffle
  · rw [bind_eq_error_iff] at h
    rcases h with hread | ⟨args, -, h⟩
    · exact explains_of_read hread
    · rw [bind_eq_error_iff, mapError_eq_error_iff] at h
      obtain ⟨fault, -, hfault⟩ | ⟨x, -, h⟩ := h
      · cases hfault
      · cases h

/-! ## Logs -/

/-- The log of an execution starts with the trace record. If the execution ends in a value, there
is no other record; if it ends in an error, there is one more, a debug record whose message says
what the error is about. -/
theorem log_explains (i : Instr) (inputs : List Value) :
    (i.executeLogged inputs).result = i.execute inputs ∧
    ∃ rest, i.log inputs = ⟨.trace, "execute " ++ i.debug ++ " on " ++ toString inputs.length ++
        " operand(s)"⟩ :: rest ∧
      (∀ r, i.execute inputs = .ok r → rest = []) ∧
      ∀ failure, i.execute inputs = .error failure → ∃ reason message,
        failure = .rejected reason ∧ rest = [⟨.debug, message⟩] ∧
          i.Explains inputs reason.toError message := by
  refine ⟨i.result_executeLogged inputs, _, i.log_eq inputs, fun r hr => ?_, fun failure hf => ?_⟩
  · rw [hr]
    rfl
  · have hreject : ¬i.Accepts inputs := fun h => by
      obtain ⟨r, hr, -⟩ := i.execute_of_accepts inputs h
      cases hr.symm.trans hf
    obtain ⟨reason, hreason, -⟩ := i.execute_of_not_accepts inputs hreject
    obtain rfl : .rejected reason = failure := by simpa using hreason.symm.trans hf
    refine ⟨reason, (reason.record i).message, rfl, ?_, explains_of_rejected hf⟩
    rw [hf]
    cases reason <;> rfl

/-- Of two operands of wrong types, the record names the first. -/
theorem log_explains_firstOperand :
    swizzle.log [.i32 1, .f64 0] = [⟨.trace, "execute I8x16Swizzle on 2 operand(s)"⟩,
      ⟨.debug, "expected v128 operand, found i32"⟩] := by
  obtain ⟨-, rest, hlog, -, herror⟩ := log_explains swizzle [.i32 1, .f64 0]
  obtain ⟨reason, message, hreason, rfl, hmessage⟩ := herror _ rfl
  cases hreason
  rw [hlog]
  cases hmessage with
  | @operandType before after found expected rest hinputs hoperands h =>
    obtain _ | ⟨v, before⟩ := before
    · cases hinputs
      cases hoperands
      rfl
    · obtain ⟨rfl, -⟩ := List.cons.inj hinputs
      cases hoperands

end Instr

end Lanewise
