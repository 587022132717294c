import Lanewise.Proofs.Literal.DigitRun

/-!
# Written digits

The digits that `Numeral.fixed` and `Numeral.least` write are a digit run without separators,
and its number is the one that was written : all of it for `least` (`value_least`), its last
digits for `fixed` (`value_fixed`). So `Literal.readDigits` reads a written number back.
-/

namespace Lanewise

namespace Numeral

variable {radix : ℕ}

/-! ## The number that was written -/

theorem IsRadix.div_lt (h : IsRadix radix) {x : ℕ} (hx : ¬x < radix) : x / radix < x :=
  Nat.div_lt_self (h.pos.trans_le (not_lt.1 hx)) h.one_lt

/-- A written digit reads back. -/
theorem digit?_digitChar (h : IsRadix radix) {d : ℕ} (hd : d < radix) :
    digit? radix (Nat.digitChar d) = some d := by
  have hchar : hexDigit? (Nat.digitChar d) = some d :=
    hexDigit?_digitChar ⟨d, hd.trans_le h.le_sixteen⟩
  rw [digit?, hchar, Option.filter_some, if_pos (decide_eq_true hd)]

theorem value_append_digitChar (h : IsRadix radix) (text : List Char) {d : ℕ} (hd : d < radix) :
    value radix (text ++ [Nat.digitChar d]) = value radix text * radix + d := by
  rw [value_append_singleton, push, digit?_digitChar h hd]

theorem value_fixed (h : IsRadix radix) (n x : ℕ) :
    value radix (fixed radix n x) = x % radix ^ n := by
  induction n generalizing x with
  | zero => simp [fixed, value, Nat.mod_one]
  | succ n ih =>
    rw [fixed, value_append_digitChar h _ (Nat.mod_lt _ h.pos), ih, Nat.pow_succ',
      Nat.mod_mul, Nat.mul_comm radix, Nat.add_comm]

theorem value_least (h : IsRadix radix) (x : ℕ) :
    value radix (least radix x) = x := by
  induction x using Nat.strong_induction_on with
  | _ x ih =>
    rw [least, Nat.toDigits_eq_if h.one_lt]
    split_ifs with hlt
    · simpa [value_nil] using value_append_digitChar h [] hlt
    · rw [value_append_digitChar h _ (Nat.mod_lt _ h.pos), ← least,
        ih _ (h.div_lt hlt), Nat.div_add_mod']

end Numeral

namespace Literal

open Numeral

variable {radix : ℕ} {text : List Char}

/-! ## Its characters -/

theorem isDigit_digitChar (h : IsRadix radix) {d : ℕ} (hd : d < radix) :
    IsDigit radix (Nat.digitChar d) := by
  rw [IsDigit, digit?_digitChar h hd]
  rfl

theorem isDigit_of_mem_fixed (h : IsRadix radix) {n x : ℕ} {c : Char}
    (hc : c ∈ fixed radix n x) : IsDigit radix c := by
  induction n generalizing x with
  | zero => simp [fixed] at hc
  | succ n ih =>
    rw [fixed, List.mem_append, List.mem_singleton] at hc
    rcases hc with hc | rfl
    · exact ih hc
    · exact isDigit_digitChar h (Nat.mod_lt _ h.pos)

theorem isDigit_of_mem_least (h : IsRadix radix) {x : ℕ} {c : Char}
    (hc : c ∈ least radix x) : IsDigit radix c := by
  induction x using Nat.strong_induction_on with
  | _ x ih =>
    rw [least, Nat.toDigits_eq_if h.one_lt] at hc
    split_ifs at hc with hlt
    · rw [List.mem_singleton] at hc
      exact hc ▸ isDigit_digitChar h hlt
    · rw [List.mem_append, List.mem_singleton] at hc
      rcases hc with hc | rfl
      · exact ih _ (h.div_lt hlt) hc
      · exact isDigit_digitChar h (Nat.mod_lt _ h.pos)

theorem least_ne_nil (radix x : ℕ) : least radix x ≠ [] :=
  Nat.toDigits_ne_nil

theorem fixed_ne_nil (radix : ℕ) {n : ℕ} (hn : 0 < n) (x : ℕ) : fixed radix n x ≠ [] := by
  rw [← List.length_pos_iff, length_fixed]
  exact hn

/-- Digits without separators are a run. -/
theorem isRun_of_forall (hne : text ≠ []) (h : ∀ c ∈ text, IsDigit radix c) :
    IsRun radix text := by
  induction text with
  | nil => exact absurd rfl hne
  | cons c rest ih =>
    by_cases hrest : rest = []
    · exact hrest ▸ .single (h c List.mem_cons_self)
    · exact .cons (h c List.mem_cons_self)
        (ih hrest fun d hd => h d (List.mem_cons_of_mem c hd))

theorem isRun_least (h : IsRadix radix) (x : ℕ) : IsRun radix (least radix x) :=
  isRun_of_forall (least_ne_nil radix x) fun _ hc => isDigit_of_mem_least h hc

theorem isRun_fixed (h : IsRadix radix) {n : ℕ} (hn : 0 < n) (x : ℕ) :
    IsRun radix (fixed radix n x) :=
  isRun_of_forall (fixed_ne_nil radix hn x) fun _ hc => isDigit_of_mem_fixed h hc

/-! ## Reading it -/

theorem readDigits_least (h : IsRadix radix) {x : ℕ} (hx : x < 2 ^ 128) :
    readDigits radix (least radix x) = .ok x := by
  rw [readDigits_of_isRun h (isRun_least h x), value_least h, if_pos hx]

theorem readDigits_fixed (h : IsRadix radix) {n x : ℕ} (hn : 0 < n) (hlt : x < radix ^ n)
    (hx : x < 2 ^ 128) : readDigits radix (fixed radix n x) = .ok x := by
  rw [readDigits_of_isRun h (isRun_fixed h hn x), value_fixed h, Nat.mod_eq_of_lt hlt, if_pos hx]

end Literal

end Lanewise
