import Lanewise.Float.Arith

/-!
# Float lanes

The operations of a float lane, as total functions on patterns. They are deterministic down
to the bits of a NaN :

* `Format.settle` fills in the result of an arithmetic operation that has none : the first
  NaN operand, made quiet, or the canonical NaN if no operand is a NaN.
* Signs are bits. `Format.abs` and `Format.neg` change the sign bit and nothing else, of
  NaNs too.
* Comparisons compare the values of two patterns and fail on NaNs; both zeros have value 0.
* `Format.min` and `Format.max` treat NaNs as arithmetic does and order the zeros by sign.
  `Format.pmin` and `Format.pmax` choose by one comparison and return an operand unchanged.
-/

namespace Lanewise

namespace Format

variable {fmt : Format}

/-! ## NaNs -/

/-- The pattern with the quiet bit set. -/
def quiet (x : fmt.Pattern) : fmt.Pattern :=
  x ||| fmt.quietBit

/-- The NaN that an operation without a result has on the given operands. -/
def nanOf (operands : List fmt.Pattern) : fmt.Pattern :=
  match operands.find? isNaN with
  | some x => quiet x
  | none => fmt.canonicalNaN

/-- A result, or the NaN of the operands. -/
def settle (operands : List fmt.Pattern) (result : Option fmt.Pattern) : fmt.Pattern :=
  result.getD (nanOf operands)

/-! ## Arithmetic -/

def add (x y : fmt.Pattern) : fmt.Pattern :=
  settle [x, y] (sum? x y)

def sub (x y : fmt.Pattern) : fmt.Pattern :=
  settle [x, y] (difference? x y)

def mul (x y : fmt.Pattern) : fmt.Pattern :=
  settle [x, y] (product? x y)

def div (x y : fmt.Pattern) : fmt.Pattern :=
  settle [x, y] (quotient? x y)

def sqrt (x : fmt.Pattern) : fmt.Pattern :=
  settle [x] (root? x)

def integral (mode : IntegralMode) (x : fmt.Pattern) : fmt.Pattern :=
  settle [x] (integral? mode x)

/-! ## Signs -/

def abs (x : fmt.Pattern) : fmt.Pattern :=
  x &&& ~~~fmt.signBit

def neg (x : fmt.Pattern) : fmt.Pattern :=
  x ^^^ fmt.signBit

/-! ## Comparisons -/

/-- A relation of the values of two patterns that are not NaNs. -/
def related (r : Int → Int → Bool) (x y : fmt.Pattern) : Bool :=
  match value? x, value? y with
  | some a, some b => r a b
  | _, _ => false

def eq (x y : fmt.Pattern) : Bool :=
  related (fun a b => a == b) x y

/-- A NaN differs from everything, itself included. -/
def ne (x y : fmt.Pattern) : Bool :=
  !eq x y

def lt (x y : fmt.Pattern) : Bool :=
  related (fun a b => a < b) x y

def le (x y : fmt.Pattern) : Bool :=
  related (fun a b => a ≤ b) x y

def gt (x y : fmt.Pattern) : Bool :=
  related (fun a b => b < a) x y

def ge (x y : fmt.Pattern) : Bool :=
  related (fun a b => b ≤ a) x y

/-- The order of patterns as unsigned numbers, in which NaNs have a place too. -/
def compareBits (x y : fmt.Pattern) : Ordering :=
  compare x.toNat y.toNat

/-! ## Minimum and maximum -/

/-- Equal operands differ at most in the sign of a zero; a set sign bit wins. -/
def min (x y : fmt.Pattern) : fmt.Pattern :=
  if isNaN x || isNaN y then nanOf [x, y]
  else if eq x y then x ||| y
  else if lt x y then x
  else y

/-- Equal operands differ at most in the sign of a zero; a clear sign bit wins. -/
def max (x y : fmt.Pattern) : fmt.Pattern :=
  if isNaN x || isNaN y then nanOf [x, y]
  else if eq x y then x &&& y
  else if gt x y then x
  else y

def pmin (x y : fmt.Pattern) : fmt.Pattern :=
  if lt y x then y else x

def pmax (x y : fmt.Pattern) : fmt.Pattern :=
  if lt x y then y else x

end Format

end Lanewise
