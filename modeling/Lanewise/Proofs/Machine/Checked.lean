import Mathlib.Algebra.Order.Group.Nat
import Mathlib.Data.Nat.Bitwise
import Lanewise.Machine.Checked
import Lanewise.Proofs.Literal.Split

/-!
# Checked operations within their range

Each checked operation gives its exact result when the numbers are within their range, one lemma for
each operation. A byte offset is at the start or the end of a character exactly if some first
characters have that many bytes (`splitBytes_eq_ok_iff`), so a cut at a mark of one byte, and behind
it, is between characters (`cutAt_eq`).
-/

namespace Lanewise

namespace Machine

/-! ## Computations -/

theorem refusing_ok {α : Type} (a : α) : refusing (.ok a) = pure a :=
  rfl

theorem refusing_bind {α β : Type} (x : Except LiteralError α) (f : α → Except LiteralError β) :
    refusing (x >>= f) = refusing x >>= fun a => refusing (f a) := by
  cases x <;> rfl

theorem guarded_of {α : Type} {condition : Prop} [Decidable condition] (h : condition) (d : Defect)
    (a : α) : guarded condition d a = pure a :=
  if_pos h

theorem guarded_eq_ok_iff {α : Type} {condition : Prop} [Decidable condition] {d : Defect}
    {a b : α} : guarded condition d a = .ok b ↔ condition ∧ a = b := by
  unfold guarded
  split_ifs with h <;> simp [h]

/-! ## Words -/

variable {width x y n : ℕ}

theorem add_eq (h : x + y < 2 ^ width) : add width x y = pure (x + y) :=
  guarded_of h ..

theorem sub_eq (h : y ≤ x) : sub x y = pure (x - y) :=
  guarded_of h ..

theorem shiftLeft_eq (hn : n < width) (hx : x * 2 ^ n < 2 ^ width) :
    shiftLeft width x n = pure (x * 2 ^ n) := by
  rw [shiftLeft, guarded_of hn, pure_bind, guarded_of hx]

theorem shiftLeft_one (h : n < width) : shiftLeft width 1 n = pure (2 ^ n) := by
  have hx : 1 * 2 ^ n < 2 ^ width := by
    rw [Nat.one_mul]
    exact Nat.pow_lt_pow_right Nat.one_lt_two h
  rw [shiftLeft_eq h hx, Nat.one_mul]

theorem shiftRight_eq (h : n < width) : shiftRight width x n = pure (x / 2 ^ n) :=
  guarded_of h ..

theorem narrow_eq (h : x < 2 ^ width) : narrow width x = pure x :=
  guarded_of h ..

theorem lowMask_eq (h : n < width) : lowMask width n = pure (2 ^ n - 1) := by
  rw [lowMask, shiftLeft_one h, pure_bind, sub_eq (Nat.two_pow_pos n)]

theorem signed_eq {z : ℤ} (h : -0x8000000000000000 ≤ z ∧ z < 0x8000000000000000) :
    signed z = pure z :=
  guarded_of h ..

theorem signedShiftLeft_one (h : n < 63) : signedShiftLeft 1 n = pure ((2 ^ n : ℕ) : ℤ) := by
  have hlt : 2 ^ n < 2 ^ 63 := Nat.pow_lt_pow_right Nat.one_lt_two h
  have hfits : FitsSigned (2 ^ n : ℕ) :=
    ⟨(Int.natCast_nonneg _).trans' (by decide), Int.ofNat_lt.2 hlt⟩
  rw [signedShiftLeft, guarded_of (by omega), pure_bind, Int.one_mul, guarded_of hfits]

theorem unsigned_eq {z : ℤ} (h : 0 ≤ z ∧ z.toNat < 2 ^ width) :
    unsigned width z = pure z.toNat :=
  guarded_of h ..

/-! ## Byte offsets -/

theorem byteLength_append (first rest : List Char) :
    byteLength (first ++ rest) = byteLength first + byteLength rest := by
  induction first with
  | nil => exact (Nat.zero_add _).symm
  | cons c first ih => rw [List.cons_append, byteLength, ih, byteLength, Nat.add_assoc]

theorem byteLength_le (text : List Char) : byteLength text ≤ 4 * text.length := by
  induction text with
  | nil => exact Nat.le_refl 0
  | cons c text ih =>
    have hc := c.utf8Size_le_four
    rw [byteLength, List.length_cons]
    omega

/-- An offset is at the start or the end of a character exactly if some first characters have that
many bytes. -/
theorem splitBytes_eq_ok_iff {text first rest : List Char} {n : ℕ} :
    splitBytes text n = .ok (first, rest) ↔ text = first ++ rest ∧ n = byteLength first := by
  induction text generalizing n first with
  | nil =>
    rw [splitBytes, guarded_eq_ok_iff, List.nil_eq_append_iff]
    constructor
    · rintro ⟨hn, hpair⟩
      cases hpair
      exact ⟨⟨rfl, rfl⟩, hn⟩
    · rintro ⟨⟨rfl, rfl⟩, hn⟩
      exact ⟨hn, rfl⟩
  | cons c text ih =>
    have hpos := c.utf8Size_pos
    rw [splitBytes, List.cons_eq_append_iff]
    constructor
    · intro h
      split_ifs at h with hn
      · cases h
        exact ⟨Or.inl ⟨rfl, rfl⟩, hn⟩
      · obtain ⟨remaining, hremaining, h⟩ := Literal.bind_eq_ok_iff.1 h
        obtain ⟨hc, rfl⟩ := guarded_eq_ok_iff.1 hremaining
        obtain ⟨⟨before, after⟩, hsplit, hpair⟩ := Literal.bind_eq_ok_iff.1 h
        cases hpair
        obtain ⟨rfl, hbytes⟩ := ih.1 hsplit
        refine ⟨Or.inr ⟨before, rfl, rfl⟩, ?_⟩
        rw [byteLength]
        omega
    · rintro ⟨⟨rfl, rfl⟩ | ⟨before, rfl, rfl⟩, hbytes⟩
      · exact if_pos hbytes
      · rw [byteLength] at hbytes
        have hsplit : splitBytes (before ++ rest) (n - c.utf8Size) = pure (before, rest) :=
          ih.2 ⟨rfl, by omega⟩
        rw [if_neg (by omega), guarded_of (by omega), pure_bind, hsplit]
        rfl

theorem offset?_append_cons {isMark : Char → Bool} {first : List Char} {mark : Char}
    (hfirst : ∀ c ∈ first, isMark c = false) (hmark : isMark mark = true) (rest : List Char) :
    offset? isMark (first ++ mark :: rest) = some (byteLength first) := by
  induction first with
  | nil => simp [offset?, hmark, byteLength]
  | cons c first ih =>
    have hc := hfirst c List.mem_cons_self
    have hrest := ih fun b hb => hfirst b (List.mem_cons_of_mem c hb)
    simp [offset?, hc, hrest, byteLength]

theorem offset?_of_forall {isMark : Char → Bool} {text : List Char}
    (htext : ∀ c ∈ text, isMark c = false) : offset? isMark text = none := by
  induction text with
  | nil => rfl
  | cons c text ih =>
    have hc := htext c List.mem_cons_self
    have hrest := ih fun b hb => htext b (List.mem_cons_of_mem c hb)
    simp [offset?, hc, hrest]

theorem not_mark_of_mem_cut {isMark : Char → Bool} {text : List Char} {c : Char}
    (hc : c ∈ (Literal.cut isMark text).1) : isMark c = false := by
  simpa using List.mem_takeWhile_imp hc

/-- At a mark of one byte the cut is between characters. -/
theorem cutAt_eq {isMark : Char → Bool} (hmark : ∀ c, isMark c = true → c.utf8Size = 1)
    {text : List Char} (hlen : byteLength text < 2 ^ 64) :
    cutAt isMark text = pure (Literal.cut isMark text) := by
  rcases Literal.cut_cases isMark text with hcut | ⟨first, mark, rest, hm, rfl, hcut⟩
  · have htext : ∀ c ∈ text, isMark c = false := fun c hc =>
      not_mark_of_mem_cut (by rwa [hcut])
    rw [cutAt, offset?_of_forall htext, hcut]
  · have hfirst : ∀ c ∈ first, isMark c = false := fun c hc =>
      not_mark_of_mem_cut (by rwa [hcut])
    rw [byteLength_append, byteLength, hmark mark hm] at hlen
    have hbefore : splitBytes (first ++ mark :: rest) (byteLength first) =
        pure (first, mark :: rest) := splitBytes_eq_ok_iff.2 ⟨rfl, rfl⟩
    have hafter : splitBytes (first ++ mark :: rest) (byteLength first + 1) =
        pure (first ++ [mark], rest) := by
      refine splitBytes_eq_ok_iff.2 ⟨by simp, ?_⟩
      rw [byteLength_append, byteLength, hmark mark hm]
      rfl
    rw [cutAt, offset?_append_cons hfirst hm, hcut]
    simp only [hbefore, hafter, add_eq (by omega : byteLength first + 1 < 2 ^ 64), pure_bind]

/-- A mark of two bytes would be cut through. -/
example : cutAt (· == 'é') ['a', 'é'] = .error (.defect .characterBoundary) := by
  decide +kernel

end Machine

end Lanewise
