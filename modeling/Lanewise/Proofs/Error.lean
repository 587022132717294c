import Lanewise.Instr.Execute
import Lanewise.Proofs.Literal.WrittenDigits
import Lanewise.Vec.Text

/-!
# What an error tells

The text of an error tells its category, its code and its message (`Error.display_injective`) : the
category stands in brackets, the code is four capital digits, and the message is the rest.

The errors that the library raises go by their codes. A code belongs to one category
(`Code.category?`), so texts that are refused and instructions that are rejected are told apart.
-/

namespace Lanewise

/-! ## Categories -/

namespace Category

theorem number_injective : Function.Injective number := by
  intro a b h
  cases a <;> cases b <;> first | rfl | cases h

/-- No name of a category is the beginning of another name. -/
theorem eq_of_name_append {a b : Category} {rest rest' : List Char}
    (h : a.name.toList ++ rest = b.name.toList ++ rest') : a = b ∧ rest = rest' := by
  cases a <;> cases b <;> simp_all [name]

end Category

/-! ## Texts -/

namespace Numeral

theorem digit?_toUpper_digitChar : ∀ d : Fin 16,
    digit? 16 (Nat.digitChar d).toUpper = some d.val := by
  decide

/-- Capital digits write the same number. -/
theorem value_map_toUpper_fixed (n x : ℕ) :
    value 16 ((fixed 16 n x).map Char.toUpper) = x % 16 ^ n := by
  induction n generalizing x with
  | zero => simp [fixed, value, Nat.mod_one]
  | succ n ih =>
    have hdigit := digit?_toUpper_digitChar ⟨x % 16, Nat.mod_lt _ (by decide)⟩
    rw [fixed, List.map_append, List.map_singleton, value_append_singleton, push, hdigit, ih,
      Nat.pow_succ', Nat.mod_mul, Nat.mul_comm 16, Nat.add_comm]

end Numeral

namespace Error

open Numeral

theorem toList_display (e : Error) : e.display.toList =
    '[' :: (e.category.name.toList ++ ']' :: '[' :: 'E' ::
      ((fixed 16 4 e.code.toNat).map Char.toUpper ++ ']' :: ' ' :: e.message.toList)) := by
  simp [display]

/-- Errors with the same text are the same. -/
theorem display_injective : Function.Injective display := by
  intro a b h
  have htext := congrArg String.toList h
  rw [toList_display, toList_display, List.cons.injEq] at htext
  obtain ⟨hcategory, hrest⟩ := Category.eq_of_name_append htext.2
  simp only [List.cons.injEq, true_and] at hrest
  obtain ⟨hdigits, hmessage⟩ := List.append_inj hrest (by simp [length_fixed])
  have hcode : a.code.toNat = b.code.toNat := by
    have hvalue := congrArg (value 16) hdigits
    rwa [value_map_toUpper_fixed, value_map_toUpper_fixed, Nat.mod_eq_of_lt a.code.toNat_lt,
      Nat.mod_eq_of_lt b.code.toNat_lt] at hvalue
  simp only [List.cons.injEq, true_and] at hmessage
  rcases a with ⟨_, _, _⟩
  rcases b with ⟨_, _, _⟩
  rw [mk.injEq]
  exact ⟨hcategory, UInt16.toNat_inj.1 hcode, String.toList_inj.1 hmessage⟩

end Error

/-! ## Codes -/

/-- The category of the errors with a code. -/
def Code.category? (code : UInt16) : Option Category :=
  if code = typeMismatch then some .type
  else if code = invalidOperandCount ∨ code = laneIndexOutOfRange then some .validation
  else if code = invalidLaneCount ∨ code = invalidLiteral then some .parse
  else none

theorem Cause.category?_code (cause : Cause) :
    Code.category? cause.toError.code = some cause.toError.category := by
  cases cause <;> rfl

theorem Rejection.category?_code (reason : Rejection) :
    Code.category? reason.toError.code = some reason.toError.category := by
  cases reason <;> rfl

theorem Vec.TextError.category?_code (e : Vec.TextError) :
    Code.category? e.toError.code = some e.toError.category := by
  cases e with
  | laneCount expected actual => exact (Cause.laneCount expected actual).category?_code
  | lane _ reason => exact (Cause.literal reason.message).category?_code

/-- A literal that is refused is an error of parsing, an instruction that is rejected is not. -/
theorem Vec.TextError.isOf_parse (e : Vec.TextError) : e.toError.isOf .parse = true := by
  cases e <;> rfl

theorem Rejection.not_isOf_parse (reason : Rejection) : reason.toError.isOf .parse = false := by
  cases reason <;> rfl

end Lanewise
