import Lanewise.Error

/-!
# Refusals of a literal

Each way in which the text of a lane can be refused, with its wording.
-/

namespace Lanewise

/-- Why a text is not a literal of a lane. -/
inductive LiteralError where
  | missingDigits
  | misplacedSeparator
  | unexpectedCharacter
  | integerOutOfRange
  | floatOutOfRange
  | payloadOutOfRange
  | malformedFloat
  deriving DecidableEq

namespace LiteralError

def message : LiteralError → String
  | missingDigits => "missing digits"
  | misplacedSeparator => "misplaced digit separator"
  | unexpectedCharacter => "unexpected character in literal"
  | integerOutOfRange => "integer literal out of range"
  | floatOutOfRange => "float literal out of range"
  | payloadOutOfRange => "NaN payload out of range"
  | malformedFloat => "malformed float literal"

def toError (e : LiteralError) : Error :=
  (Cause.literal e.message).toError

end LiteralError

end Lanewise
