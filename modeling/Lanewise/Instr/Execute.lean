import Lanewise.Instr.Basic
import Lanewise.Vec.Bitwise
import Lanewise.Vec.Permute

/-!
# Execution

An execution checks the number of operands, then the immediates, then the types of the
operands in order, and then applies the operation. A `Rejection` is the first check that
fails, with what the check saw. Operations on lanes may also end in a `Fault`; a `Failure`
is one or the other.

* `Args` are operands of a given list of types; `Args.read` finds them in a list of values.
* `Instr.run` applies an operation to operands of its signature.
* `Instr.execute` does the checks and runs the operation.
-/

namespace Lanewise

/-! ## Failures -/

/-- The first check that failed. -/
inductive Rejection where
  | operandCount (expected got : Nat)
  | laneIndex (lane : UInt8) (s : Shape)
  | shuffleIndex (lane : UInt8)
  | operandType (expected found : ValueType)
  deriving DecidableEq

namespace Rejection

def toError : Rejection → Error
  | operandCount _ _ =>
      .invalidOperandCount "SIMD operand count does not match the instruction"
  | laneIndex lane s => (Cause.laneIndex lane.toNat s.lanes).toError
  | shuffleIndex lane => (Cause.laneIndex lane.toNat 32).toError
  | operandType _ _ => .typeMismatch "SIMD operand has the wrong value type"

end Rejection

inductive Failure where
  | rejected (reason : Rejection)
  | fault (fault : Fault)
  deriving DecidableEq

/-! ## Operands -/

/-- Operands of the given types. -/
@[reducible] def Args : List ValueType → Type
  | [] => Unit
  | t :: ts => t.Carrier × Args ts

/-- The operands of the given types at the front of a list of values. -/
def Args.read : (ts : List ValueType) → List Value → Except Failure (Args ts)
  | [], _ => .ok ()
  | _ :: _, [] => .error (.fault .missingOperand)
  | t :: ts, v :: vs =>
      match v.as? t with
      | none => .error (.rejected (.operandType t v.type))
      | some x =>
          match Args.read ts vs with
          | .error e => .error e
          | .ok rest => .ok (x, rest)

namespace Instr

/-! ## Checks -/

def checkCount (i : Instr) (inputs : List Value) : Except Rejection Unit :=
  if inputs.length = i.operandCount then .ok ()
  else .error (.operandCount i.operandCount inputs.length)

def checkLane (i : Instr) : Except Rejection Unit :=
  match i.laneImmediate?, i.shape? with
  | some lane, some s => if lane.toNat < s.lanes then .ok () else .error (.laneIndex lane s)
  | _, _ => .ok ()

def checkShuffle : Instr → Except Rejection Unit
  | shuffle lanes =>
      match Vec.badIndex? lanes with
      | some lane => .error (.shuffleIndex lane)
      | none => .ok ()
  | _ => .ok ()

/-- The checks that look at the instruction and the number of operands. -/
def check (i : Instr) (inputs : List Value) : Except Rejection Unit := do
  i.checkCount inputs
  i.checkLane
  i.checkShuffle

/-! ## Operations -/

/-- A truth value as an operand. -/
def truth (b : Bool) : BitVec 32 :=
  if b then 1#32 else 0#32

def runBitwise : BitwiseBinary → Vec → Vec → Vec
  | .and, a, b => a.and b
  | .or, a, b => a.or b
  | .xor, a, b => a.xor b
  | .andNot, a, b => a.andNot b

/-- The operation, on operands of its signature. -/
def run : (i : Instr) → Args i.operands → Except Fault i.result.Carrier
  | not, (a, _) => .ok a.not
  | bitwise op, (a, b, _) => .ok (runBitwise op a b)
  | bitselect, (a, b, mask, _) => .ok (a.bitselect b mask)
  | anyTrue, (a, _) => .ok (truth a.anyTrue)
  | splat s, (x, _) => .ok (Vec.splat s (s.laneOfScalar x))
  | extractLane s sign lane _, (a, _) =>
      (Vec.extractLane s lane.toNat a).map (s.scalarOfLane (sign.getD .unsigned))
  | replaceLane s lane, (a, x, _) => Vec.replaceLane s lane.toNat (s.laneOfScalar x) a
  | swizzle, (a, b, _) => .ok (a.swizzle b)
  | shuffle lanes, (a, b, _) => Vec.shuffle lanes a b
  | intUnary s op, (a, _) => .ok (s.unary op a)
  | intBinary s op _, (a, b, _) => .ok (s.binary op a b)
  | allTrue s, (a, _) => .ok (truth (s.allTrue a))
  | bitmask s, (a, _) => .ok (BitVec.ofNat 32 (s.bitmask a))
  | shift s op, (a, count, _) => .ok (s.shift op a count)
  | floatUnary s op, (a, _) => .ok (s.unary op a)
  | floatBinary s op, (a, b, _) => .ok (s.binary op a b)

/-- The result of an instruction on a list of values. -/
def execute (i : Instr) (inputs : List Value) : Except Failure Value := do
  (i.check inputs).mapError .rejected
  let args ← Args.read i.operands inputs
  let x ← (i.run args).mapError .fault
  return Value.of i.result x

end Instr

end Lanewise
