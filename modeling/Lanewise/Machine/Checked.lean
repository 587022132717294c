import Lanewise.Literal.Error
import Lanewise.Power

/-!
# Checked machine words

Computations on words of a fixed width, and on byte offsets into a text, that stop at the first
step a machine could not carry out exactly : an integer out of the range of its type, a shift by
the width of the word or more, a set bit that a shift discards, a conversion that changes the
value, an offset inside a character.

An unsigned word of `width` bits is the natural number that it holds, a signed word of 64 bits
the integer. Every operation checks its result, so the numbers stay within their words.
-/

namespace Lanewise

namespace Machine

/-! ## Computations -/

/-- A step that a machine cannot carry out exactly. -/
inductive Defect where
  | overflow
  | shiftAmount
  | discardedBits
  | conversion
  | characterBoundary
  deriving DecidableEq

/-- Why a computation has no result. Only the first is meant for a caller. -/
inductive Halt where
  | refused (e : LiteralError)
  | defect (d : Defect)
  deriving DecidableEq

abbrev Checked (α : Type) : Type :=
  Except Halt α

/-- A computation without words, as a part of one with words. -/
def refusing {α : Type} (result : Except LiteralError α) : Checked α :=
  result.mapError .refused

/-- A number, if the condition on it holds. -/
def guarded {α : Type} (condition : Prop) [Decidable condition] (d : Defect) (a : α) : Checked α :=
  if condition then .ok a else .error (.defect d)

/-! ## Unsigned words -/

def add (width x y : Nat) : Checked Nat :=
  guarded (x + y < 2 ^ width) .overflow (x + y)

def sub (x y : Nat) : Checked Nat :=
  guarded (y ≤ x) .overflow (x - y)

def shiftLeft (width x amount : Nat) : Checked Nat := do
  let shifted ← guarded (amount < width) .shiftAmount (x * 2 ^ amount)
  guarded (shifted < 2 ^ width) .discardedBits shifted

def shiftRight (width x amount : Nat) : Checked Nat :=
  guarded (amount < width) .shiftAmount (x / 2 ^ amount)

/-- The same number in a narrower word. -/
def narrow (width x : Nat) : Checked Nat :=
  guarded (x < 2 ^ width) .conversion x

/-- The lowest `count` bits. -/
def lowMask (width count : Nat) : Checked Nat := do
  sub (← shiftLeft width 1 count) 1

/-- All bits flipped. -/
def complement (width x : Nat) : Nat :=
  2 ^ width - (x + 1)

/-- The negative modulo the word. -/
def wrappingNeg (width x : Nat) : Nat :=
  (-BitVec.ofNat width x).toNat

/-- The zeros in front of the first set bit. -/
def leadingZeros (width x : Nat) : Nat :=
  if x = 0 then width else width - 1 - x.log2

/-- A product that gives up when it overflows. -/
def product? (width x y : Nat) : Option Nat :=
  if x * y < 2 ^ width then some (x * y) else none

/-- A sum that gives up when it overflows. -/
def sum? (width x y : Nat) : Option Nat :=
  if x + y < 2 ^ width then some (x + y) else none

/-! ## Signed words of 64 bits -/

/-- The numbers that a signed word holds. -/
def FitsSigned (z : Int) : Prop :=
  -0x8000000000000000 ≤ z ∧ z < 0x8000000000000000

instance (z : Int) : Decidable (FitsSigned z) :=
  inferInstanceAs (Decidable (_ ∧ _))

/-- The result of a sum, a difference or a negation. -/
def signed (z : Int) : Checked Int :=
  guarded (FitsSigned z) .overflow z

def signedShiftLeft (z : Int) (amount : Nat) : Checked Int := do
  let shifted ← guarded (amount < 64) .shiftAmount (z * (2 ^ amount : Nat))
  guarded (FitsSigned shifted) .discardedBits shifted

/-- The same number in an unsigned word. -/
def unsigned (width : Nat) (z : Int) : Checked Nat :=
  guarded (0 ≤ z ∧ z.toNat < 2 ^ width) .conversion z.toNat

/-! ## Byte offsets -/

/-- The number of bytes of a text. -/
def byteLength : List Char → Nat
  | [] => 0
  | c :: rest => c.utf8Size + byteLength rest

/-- The byte offset of the first character of a kind. -/
def offset? (isMark : Char → Bool) : List Char → Option Nat
  | [] => none
  | c :: rest => if isMark c then some 0 else (offset? isMark rest).map (c.utf8Size + ·)

/-- The characters before a byte offset and those from it on. -/
def splitBytes : List Char → Nat → Checked (List Char × List Char)
  | [], n => guarded (n = 0) .characterBoundary ([], [])
  | c :: rest, n =>
      if n = 0 then .ok ([], c :: rest)
      else do
        let remaining ← guarded (c.utf8Size ≤ n) .characterBoundary (n - c.utf8Size)
        let (before, after) ← splitBytes rest remaining
        return (c :: before, after)

/-- The text before and after its first mark, which must be a single byte. -/
def cutAt (isMark : Char → Bool) (text : List Char) : Checked (List Char × Option (List Char)) :=
  match offset? isMark text with
  | none => return (text, none)
  | some position => do
      let (before, _) ← splitBytes text position
      let (_, after) ← splitBytes text (← add 64 position 1)
      return (before, some after)

end Machine

end Lanewise
