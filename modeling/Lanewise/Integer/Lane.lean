/-!
# Integer lanes

A lane of width `w` is a `BitVec w`, read as an unsigned number or as a two's complement
number as the operation asks. Operations with two readings take a `Signedness`.

Addition, subtraction, multiplication and negation wrap, so the bits of the result do not
depend on the reading. The saturating operations look at the overflow of the wrapped result,
and the rounding average is computed with one more bit than the lane has.
-/

namespace Lanewise

/-- How the bits of a lane are read as a number. -/
inductive Signedness where
  | signed
  | unsigned
  deriving DecidableEq

namespace Signedness

variable {w : Nat}

/-- The number that the bits stand for. -/
def value : Signedness → BitVec w → Int
  | signed, x => x.toInt
  | unsigned, x => x.toNat

/-- More bits for the same number. -/
def extend (n : Nat) : Signedness → BitVec w → BitVec n
  | signed, x => x.signExtend n
  | unsigned, x => x.setWidth n

def lt : Signedness → BitVec w → BitVec w → Bool
  | signed, a, b => a.slt b
  | unsigned, a, b => a.ult b

def le : Signedness → BitVec w → BitVec w → Bool
  | signed, a, b => a.sle b
  | unsigned, a, b => a.ule b

def min (s : Signedness) (a b : BitVec w) : BitVec w :=
  if s.lt a b then a else b

def max (s : Signedness) (a b : BitVec w) : BitVec w :=
  if s.lt b a then a else b

end Signedness

namespace Lane

variable {w : Nat}

/-! ## Saturating arithmetic -/

/-- Signed overflow has the sign that both operands have; the sum stops at that end. -/
def addSat : Signedness → BitVec w → BitVec w → BitVec w
  | .signed, a, b =>
      if a.saddOverflow b then (if a.msb then BitVec.intMin w else BitVec.intMax w) else a + b
  | .unsigned, a, b => if a.uaddOverflow b then BitVec.allOnes w else a + b

/-- Signed overflow goes the way of the left operand; unsigned differences stop at zero. -/
def subSat : Signedness → BitVec w → BitVec w → BitVec w
  | .signed, a, b =>
      if a.ssubOverflow b then (if a.msb then BitVec.intMin w else BitVec.intMax w) else a - b
  | .unsigned, a, b => if a.usubOverflow b then 0#w else a - b

/-! ## Averages and shifts -/

/-- Half of the sum plus one, unsigned. The sum needs one more bit than a lane has. -/
def avgr (a b : BitVec w) : BitVec w :=
  ((a.setWidth (w + 1) + b.setWidth (w + 1) + 1#(w + 1)) >>> 1).setWidth w

/-- A shift count is reduced modulo the lane width. -/
def shl (a : BitVec w) (count : BitVec 32) : BitVec w :=
  a <<< (count.toNat % w)

def shr : Signedness → BitVec w → BitVec 32 → BitVec w
  | .signed, a, count => a.sshiftRight (count.toNat % w)
  | .unsigned, a, count => a >>> (count.toNat % w)

end Lane

end Lanewise
