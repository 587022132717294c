/-!
# Parts of a literal

A literal is cut from the left : an optional sign, then the first mark of a kind.
-/

namespace Lanewise

/-- A written sign. -/
inductive Sign where
  | plus
  | minus
  deriving DecidableEq

namespace Literal

/-- The sign a text starts with, if any, and the rest. -/
def splitSign : List Char → Option Sign × List Char
  | '-' :: rest => (some .minus, rest)
  | '+' :: rest => (some .plus, rest)
  | text => (none, text)

/-- A text cut at its first mark; the second part is missing if there is none. -/
def cut (isMark : Char → Bool) (text : List Char) : List Char × Option (List Char) :=
  (text.takeWhile fun c => !isMark c, (text.dropWhile fun c => !isMark c).tail?)

/-- The text before and after the first point. -/
def cutPoint (text : List Char) : List Char × Option (List Char) :=
  cut (· == '.') text

end Literal

end Lanewise
