import Lanewise.Instr.Execute
import Lanewise.Instr.Name

/-!
# Log of an execution

Every execution leaves one trace record, and a rejected one leaves a debug record that says
what the failed check saw.

`Logged` is a computation with the records it leaves; a failure ends it and keeps the records
so far. `Instr.executeLogged` goes through the checks and the operands of an execution, each of
which leaves its own record if it refuses, and `Instr.log` is what it leaves.
-/

namespace Lanewise

inductive Level where
  | trace
  | debug
  deriving DecidableEq

namespace Level

def name : Level → String
  | trace => "TRACE"
  | debug => "DEBUG"

end Level

/-- A line of the log. -/
structure Record where
  level : Level
  message : String
  deriving DecidableEq

namespace Rejection

/-- What the failed check of an instruction saw. -/
def record (i : Instr) : Rejection → Record
  | operandCount expected got =>
      ⟨.debug, i.debug ++ " expects " ++ toString expected ++ " operand(s), got " ++ toString got⟩
  | laneIndex lane s =>
      ⟨.debug, i.debug ++ ": lane " ++ toString lane.toNat ++ " out of range for " ++ s.name⟩
  | shuffleIndex lane =>
      ⟨.debug, "i8x16.shuffle: lane " ++ toString lane.toNat ++ " out of range"⟩
  | operandType expected found =>
      ⟨.debug, "expected " ++ expected.name ++ " operand, found " ++ found.name⟩

end Rejection

/-! ## Computations that leave records -/

/-- How a computation ended, and the records it left, in order. -/
structure Logged (α : Type) where
  records : List Record
  result : Except Failure α

namespace Logged

def emit (record : Record) : Logged Unit :=
  ⟨[record], .ok ()⟩

/-- A computation that leaves no record. -/
def silent {α : Type} (result : Except Failure α) : Logged α :=
  ⟨[], result⟩

/-- What follows is not reached after a failure. -/
def andThen {α β : Type} (x : Logged α) (f : α → Logged β) : Logged β :=
  match x.result with
  | .ok a => ⟨x.records ++ (f a).records, (f a).result⟩
  | .error e => ⟨x.records, .error e⟩

instance : Monad Logged where
  pure a := silent (.ok a)
  bind := andThen

/-- Without the records, computations follow each other as results do. -/
theorem result_bind {α β : Type} (x : Logged α) (f : α → Logged β) :
    (x >>= f).result = x.result >>= fun a => (f a).result := by
  obtain ⟨records, e | a⟩ := x <;> rfl

end Logged

namespace Instr

/-! ## Executions -/

/-- The record that every execution starts with. -/
def traceRecord (i : Instr) (inputs : List Value) : Record :=
  ⟨.trace, "execute " ++ i.debug ++ " on " ++ toString inputs.length ++ " operand(s)"⟩

/-- A check, which leaves a record if it refuses. -/
def checked (i : Instr) {α : Type} : Except Rejection α → Logged α
  | .ok x => pure x
  | .error reason => do
      Logged.emit (reason.record i)
      Logged.silent (.error (.rejected reason))

/-- A value as an operand of the given type. -/
def readOperand (i : Instr) (t : ValueType) (v : Value) : Logged t.Carrier :=
  i.checked <|
    match v.as? t with
    | some x => .ok x
    | none => .error (.operandType t v.type)

/-- The operands of the given types at the front of a list of values. -/
def readOperands (i : Instr) : (ts : List ValueType) → List Value → Logged (Args ts)
  | [], _ => pure ()
  | _ :: _, [] => Logged.silent (.error (.fault .missingOperand))
  | t :: ts, v :: vs => do
      let x ← i.readOperand t v
      let rest ← readOperands i ts vs
      return (x, rest)

/-- The result of an instruction on a list of values, with the records left on the way. -/
def executeLogged (i : Instr) (inputs : List Value) : Logged Value := do
  Logged.emit (i.traceRecord inputs)
  i.checked (i.checkCount inputs)
  i.checked i.checkLane
  i.checked i.checkShuffle
  let args ← i.readOperands i.operands inputs
  let x ← Logged.silent ((i.run args).mapError .fault)
  return Value.of i.result x

/-- The records that an execution leaves, in order. -/
def log (i : Instr) (inputs : List Value) : List Record :=
  (i.executeLogged inputs).records

end Instr

end Lanewise
