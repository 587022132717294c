import Lanewise.Proofs.Float.Order

/-!
# Reductions by pseudo-minimum and pseudo-maximum

A pseudo-minimum keeps its first operand unless the second one is less, and a pseudo-maximum unless
it is greater (`Format.Replaces`). So a fold over a list stays at a NaN that it starts from, and
passes over every other NaN.

A fold that starts from a number keeps an element of the part of the list it has seen :
all numbers before this element are behind it in the order, and none after it is ahead
(`Format.Keeps`). `Format.pseudo_reductions_earliest` : it ends with the first of the elements that
are least, or greatest, among the numbers of the list. The zeros are equal here, so the one that
occurs first stays.
-/

namespace Lanewise

namespace Format

variable {fmt : Format} {x y m : fmt.Pattern} {xs : List fmt.Pattern}

/-! ## One element -/

/-- An operation that keeps its first operand unless the place of the second one is less. -/
structure Replaces (op : fmt.Pattern → fmt.Pattern → fmt.Pattern) (place : fmt.Pattern → ℤ) :
    Prop where
  of_lt : ∀ x y, isNaN x = false → isNaN y = false → place y < place x → op x y = y
  of_not_lt : ∀ x y, ¬(isNaN x = false ∧ isNaN y = false ∧ place y < place x) → op x y = x

theorem replaces_pmin : Replaces (pmin : fmt.Pattern → fmt.Pattern → fmt.Pattern) key where
  of_lt x y hx hy h := if_pos (FloatCompare.lt_iff.2 ⟨hy, hx, h⟩)
  of_not_lt x y h := if_neg fun hlt => by
    obtain ⟨hy, hx, hkey⟩ := FloatCompare.lt_iff.1 hlt
    exact h ⟨hx, hy, hkey⟩

theorem replaces_pmax :
    Replaces (pmax : fmt.Pattern → fmt.Pattern → fmt.Pattern) fun x => -key x where
  of_lt x y hx hy h := if_pos (FloatCompare.lt_iff.2 ⟨hx, hy, neg_lt_neg_iff.1 h⟩)
  of_not_lt x y h := if_neg fun hlt => by
    obtain ⟨hx, hy, hkey⟩ := FloatCompare.lt_iff.1 hlt
    exact h ⟨hx, hy, neg_lt_neg_iff.2 hkey⟩

/-! ## The part of a list that was seen -/

/-- The element `m` of a list is a number, the numbers before it have greater places and those after
it no lesser ones. -/
def Keeps (place : fmt.Pattern → ℤ) (xs : List fmt.Pattern) (m : fmt.Pattern) : Prop :=
  ∃ before after, xs = before ++ m :: after ∧ isNaN m = false ∧
    (∀ x ∈ before, isNaN x = false → place m < place x) ∧
    ∀ x ∈ after, isNaN x = false → place m ≤ place x

variable {op : fmt.Pattern → fmt.Pattern → fmt.Pattern} {place : fmt.Pattern → ℤ}

theorem keeps_singleton (place : fmt.Pattern → ℤ) (hx : isNaN x = false) : Keeps place [x] x :=
  ⟨[], [], rfl, hx, by simp, by simp⟩

theorem Keeps.le (h : Keeps place xs m) (hx : x ∈ xs) (hnan : isNaN x = false) :
    place m ≤ place x := by
  obtain ⟨before, after, rfl, -, hbefore, hafter⟩ := h
  rcases List.mem_append.1 hx with hx | hx
  · exact (hbefore x hx hnan).le
  · rcases List.mem_cons.1 hx with rfl | hx
    · exact le_rfl
    · exact hafter x hx hnan

/-- One more element either stays behind or takes the place of the one that was kept. -/
theorem Replaces.keeps_append_singleton (h : Replaces op place) (hm : Keeps place xs m)
    (y : fmt.Pattern) : Keeps place (xs ++ [y]) (op m y) := by
  by_cases hlt : isNaN m = false ∧ isNaN y = false ∧ place y < place m
  · obtain ⟨hmnan, hynan, hkey⟩ := hlt
    rw [h.of_lt m y hmnan hynan hkey]
    exact ⟨xs, [], rfl, hynan, fun x hx hnan => hkey.trans_le (hm.le hx hnan), by simp⟩
  · rw [h.of_not_lt m y hlt]
    obtain ⟨before, after, rfl, hmnan, hbefore, hafter⟩ := hm
    refine ⟨before, after ++ [y], by simp, hmnan, hbefore, List.forall_mem_append.2 ⟨hafter, ?_⟩⟩
    intro x hx hnan
    obtain rfl := List.mem_singleton.1 hx
    exact not_lt.1 fun hkey => hlt ⟨hmnan, hnan, hkey⟩

theorem Replaces.keeps_foldl (h : Replaces op place) (ys : List fmt.Pattern)
    (hm : Keeps place xs m) : Keeps place (xs ++ ys) (ys.foldl op m) := by
  induction ys generalizing xs m with
  | nil => rwa [List.append_nil]
  | cons y ys ih =>
    rw [List.foldl_cons, List.append_cons]
    exact ih (h.keeps_append_singleton hm y)

/-- Nothing takes the place of a NaN. -/
theorem Replaces.foldl_of_isNaN (h : Replaces op place) (hx : isNaN x = true)
    (xs : List fmt.Pattern) : xs.foldl op x = x := by
  induction xs with
  | nil => rfl
  | cons y xs ih =>
    rw [List.foldl_cons, h.of_not_lt x y (by simp [hx]), ih]

/-! ## The whole list -/

/-- A number that stands in a relation to all numbers of a list. -/
def Leads (r : fmt.Pattern → fmt.Pattern → Bool) (xs : List fmt.Pattern) (m : fmt.Pattern) : Prop :=
  isNaN m = false ∧ ∀ x ∈ xs, isNaN x = false → r m x = true

/-- The element of a list with the lowest index among those that lead it. -/
def IsEarliest (r : fmt.Pattern → fmt.Pattern → Bool) (xs : List fmt.Pattern) (m : fmt.Pattern) :
    Prop :=
  ∃ before after, xs = before ++ m :: after ∧ Leads r xs m ∧ ∀ x ∈ before, ¬Leads r xs x

theorem Keeps.isEarliest {r : fmt.Pattern → fmt.Pattern → Bool}
    (hr : ∀ x y, isNaN x = false → isNaN y = false → (r x y = true ↔ place x ≤ place y))
    (h : Keeps place xs m) : IsEarliest r xs m := by
  have hle := fun x hx hnan => h.le (x := x) hx hnan
  obtain ⟨before, after, hxs, hm, hbefore, -⟩ := h
  refine ⟨before, after, hxs, ⟨hm, fun x hx hnan => ?_⟩, fun x hx hleads => ?_⟩
  · exact (hr m x hm hnan).2 (hle x hx hnan)
  · have hmem : m ∈ xs := by simp [hxs]
    have hxm := (hr x m hleads.1 hm).1 (hleads.2 m hmem hm)
    exact absurd (hbefore x hx hleads.1) (not_lt.2 hxm)

/-- A reduction from the left stays at a first element that is a NaN, with its bits as they are.
From a number it goes to the earliest of the numbers that are at most, or at least, all numbers of
the list. -/
theorem pseudo_reductions_earliest {fmt : Format} (x : fmt.Pattern) (xs : List fmt.Pattern) :
    (isNaN x = true → xs.foldl pmin x = x ∧ xs.foldl pmax x = x) ∧
    (isNaN x = false → IsEarliest le (x :: xs) (xs.foldl pmin x) ∧
      IsEarliest ge (x :: xs) (xs.foldl pmax x)) := by
  refine ⟨fun hx => ⟨?_, ?_⟩, fun hx => ⟨?_, ?_⟩⟩
  · exact replaces_pmin.foldl_of_isNaN hx xs
  · exact replaces_pmax.foldl_of_isNaN hx xs
  · have hkeeps := replaces_pmin.keeps_foldl xs (keeps_singleton _ hx)
    exact hkeeps.isEarliest fun x y hx hy => FloatCompare.le.holds_iff hx hy
  · have hkeeps := replaces_pmax.keeps_foldl xs (keeps_singleton _ hx)
    refine hkeeps.isEarliest fun x y hx hy => ?_
    rw [neg_le_neg_iff]
    exact FloatCompare.ge.holds_iff hx hy

/-- A NaN, a negative zero and a one. -/
def laterElements : List binary32.Pattern :=
  [0x7FC00000#32, 0x80000000#32, 0x3F800000#32]

/-- A positive zero stays before the NaN and the negative zero, a signalling NaN before all. -/
theorem pseudo_reductions_earliest_zero :
    @isNaN binary32 0x00000000#32 = false ∧
      @IsEarliest binary32 le (0x00000000#32 :: laterElements)
        (laterElements.foldl (@pmin binary32) 0x00000000#32) ∧
      laterElements.foldl (@pmin binary32) 0x00000000#32 = 0x00000000#32 ∧
      @isNaN binary32 0xFFA00000#32 = true ∧
      laterElements.foldl (@pmax binary32) 0xFFA00000#32 = 0xFFA00000#32 := by
  have hzero : @isNaN binary32 0x00000000#32 = false := by decide
  have hnan : @isNaN binary32 0xFFA00000#32 = true := by decide
  refine ⟨hzero, ((pseudo_reductions_earliest _ _).2 hzero).1, ?_, hnan,
    ((pseudo_reductions_earliest _ _).1 hnan).2⟩
  decide +kernel

end Format

end Lanewise
