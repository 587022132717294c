import Lanewise.Numeral

/-!
# Errors and faults

What a caller sees of a refusal is an `Error` : a category, a code and a message. Refusals
arise as data and become errors in one place each; a `Cause` is the part of that data the
whole library shares.

A `Fault` is different. It says that a lane-level function was called with an index it was
promised never to get.
-/

namespace Lanewise

/-! ## Categories and codes -/

/-- The kind of thing that was wrong. -/
inductive Category where
  | validation
  | type
  | parse
  deriving DecidableEq

namespace Category

def name : Category → String
  | validation => "Validation"
  | type => "Type"
  | parse => "Parse"

def number : Category → Nat
  | validation => 5
  | type => 6
  | parse => 10

end Category

namespace Code

/-- An operand or a byte list is of the wrong type. -/
def typeMismatch : UInt16 := 1009

/-- An instruction was given too few or too many operands. -/
def invalidOperandCount : UInt16 := 5010

/-- There are too few or too many literals for the lanes of a shape. -/
def invalidLaneCount : UInt16 := 8701

/-- A literal is malformed or out of range. -/
def invalidLiteral : UInt16 := 8702

/-- A lane immediate names no lane. -/
def laneIndexOutOfRange : UInt16 := 8703

end Code

/-! ## Errors -/

/-- A refusal as a caller sees it. -/
structure Error where
  category : Category
  code : UInt16
  message : String
  deriving DecidableEq

namespace Error

def invalidLiteral (message : String) : Error :=
  ⟨.parse, Code.invalidLiteral, message⟩

def invalidOperandCount (message : String) : Error :=
  ⟨.validation, Code.invalidOperandCount, message⟩

def typeMismatch (message : String) : Error :=
  ⟨.type, Code.typeMismatch, message⟩

def invalidLaneCount : Error :=
  ⟨.parse, Code.invalidLaneCount, "Literal count does not match lane count"⟩

def laneIndexOutOfRange : Error :=
  ⟨.validation, Code.laneIndexOutOfRange, "Lane index out of range"⟩

def isOf (category : Category) (e : Error) : Bool :=
  e.category = category

/-- The category, the code as four capital hexadecimal digits, and the message. -/
def display (e : Error) : String :=
  "[" ++ e.category.name ++ "][E" ++
    String.ofList ((Numeral.fixed 16 4 e.code.toNat).map Char.toUpper) ++ "] " ++ e.message

end Error

/-! ## Causes -/

/-- What went wrong, with the numbers and words that describe it. -/
inductive Cause where
  | laneCount (expected actual : Nat)
  | literal (reason : String)
  | laneIndex (lane lanes : Nat)
  | byteCount (kind : String) (expected : Nat)
  deriving DecidableEq

namespace Cause

def describe : Cause → String
  | laneCount expected actual =>
      "Invalid lane count: expected " ++ toString expected ++ " literals, got " ++ toString actual
  | literal reason => "Invalid literal: " ++ reason
  | laneIndex lane lanes =>
      "Lane index " ++ toString lane ++ " out of range for " ++ toString lanes ++ " lanes"
  | byteCount kind expected => kind ++ " requires exactly " ++ toString expected ++ " bytes"

/-- An error keeps the category and loses the numbers. -/
def toError : Cause → Error
  | laneCount _ _ => .invalidLaneCount
  | literal reason => .invalidLiteral reason
  | laneIndex _ _ => .laneIndexOutOfRange
  | byteCount kind expected => .typeMismatch (byteCount kind expected).describe

end Cause

/-! ## Faults -/

/-- A broken promise of the caller of a lane-level function. -/
inductive Fault where
  | lane (index lanes : Nat)
  | shuffle (index : Nat)
  | missingOperand
  deriving DecidableEq

namespace Fault

def message : Fault → String
  | lane index lanes => (Cause.laneIndex index lanes).describe
  | shuffle index => "shuffle lane index " ++ toString index ++ " out of range"
  | missingOperand => "an operand is missing"

end Fault

end Lanewise
