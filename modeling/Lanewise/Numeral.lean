/-!
# Numerals

Digits and the numbers they stand for, in radix ten and sixteen.

* `Numeral.digit?` reads one character; only ASCII digits and the letters `a` to `f` of
  either case are digits.
* `Numeral.value` is the number written by a run of digits. Characters that are not digits
  are skipped, so a run may hold separators.
* `Numeral.fixed` writes a number with a given count of digits, `Numeral.least` with as few
  as it needs.
-/

namespace Lanewise

namespace Numeral

/-! ## Reading -/

/-- The number a hexadecimal digit of either case stands for. -/
def hexDigit? (c : Char) : Option Nat :=
  if '0' ≤ c ∧ c ≤ '9' then some (c.toNat - '0'.toNat)
  else if 'a' ≤ c ∧ c ≤ 'f' then some (c.toNat - 'a'.toNat + 10)
  else if 'A' ≤ c ∧ c ≤ 'F' then some (c.toNat - 'A'.toNat + 10)
  else none

/-- The number a digit of the radix stands for. -/
def digit? (radix : Nat) (c : Char) : Option Nat :=
  (hexDigit? c).filter (· < radix)

/-- One more digit makes the number `radix` times as large, plus the digit. -/
def push (radix : Nat) (value : Nat) (c : Char) : Nat :=
  match digit? radix c with
  | some d => value * radix + d
  | none => value

/-- The number written by a run of digits, most significant first. -/
def value (radix : Nat) (text : List Char) : Nat :=
  text.foldl (push radix) 0

theorem digit?_lt {radix : Nat} {c : Char} {d : Nat} (h : digit? radix c = some d) :
    d < radix := by
  have := Option.filter_eq_some_iff.1 h
  simpa using this.2

theorem value_nil (radix : Nat) : value radix [] = 0 := rfl

theorem value_append_singleton (radix : Nat) (text : List Char) (c : Char) :
    value radix (text ++ [c]) = push radix (value radix text) c := by
  simp [value, List.foldl_append]

/-! ## Writing -/

/-- The last `n` digits of `x`, leading zeros included. -/
def fixed (radix : Nat) : Nat → Nat → List Char
  | 0, _ => []
  | n + 1, x => fixed radix n (x / radix) ++ [Nat.digitChar (x % radix)]

/-- The digits of `x` with no leading zero; zero is written `0`. -/
def least (radix x : Nat) : List Char :=
  Nat.toDigits radix x

theorem length_fixed (radix : Nat) : ∀ n x : Nat, (fixed radix n x).length = n
  | 0, _ => rfl
  | n + 1, x => by simp [fixed, length_fixed radix n]

/-- A written digit reads back as the number it was written for. -/
theorem hexDigit?_digitChar : ∀ d : Fin 16, hexDigit? (Nat.digitChar d) = some d.val := by
  decide

end Numeral

end Lanewise
