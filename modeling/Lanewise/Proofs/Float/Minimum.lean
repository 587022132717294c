import Lanewise.Proofs.Float.Order

/-!
# Reductions by minimum and maximum

Every pattern has a `Format.rank`, the key with the negative zero one step below the positive one.
Different patterns have different ranks, and the ranks are in the order of the values, refined by
the order of the zeros (`Format.before_iff`). A minimum or a maximum chooses an operand by the ranks
unless an operand is a NaN; then it is the first NaN, made quiet (`Format.Chooses`). Such an
operation is associative : the lesser of two ranks is, and a NaN that is quiet already is not
changed again.

An associative operation reduces a list to the same result however the list is bracketed
(`Bracketing.reduce_eq_of_toList_eq`). `Format.reductions_closed_form` says what it is : the first
NaN, made quiet, or else the first of all elements in the refined order.
-/

namespace Lanewise

/-! ## Bracketings -/

/-- A nonempty list with brackets around its elements, two parts in each pair. -/
inductive Bracketing (α : Type) where
  | single (x : α)
  | pair (left right : Bracketing α)

namespace Bracketing

variable {α : Type}

/-- The elements, without the brackets. -/
def toList : Bracketing α → List α
  | single x => [x]
  | pair left right => left.toList ++ right.toList

/-- The result of an operation on each pair, the inner pairs first. -/
def reduce (op : α → α → α) : Bracketing α → α
  | single x => x
  | pair left right => op (left.reduce op) (right.reduce op)

variable {op : α → α → α}

/-- An associative operation takes the elements one after the other. -/
theorem op_reduce (hassoc : ∀ x y z, op (op x y) z = op x (op y z)) (x : α) (t : Bracketing α) :
    op x (t.reduce op) = t.toList.foldl op x := by
  induction t generalizing x with
  | single y => rfl
  | pair left right ihl ihr => rw [reduce, ← hassoc, ihl, ihr, toList, List.foldl_append]

theorem exists_reduce_eq_foldl (hassoc : ∀ x y z, op (op x y) z = op x (op y z))
    (t : Bracketing α) : ∃ x xs, t.toList = x :: xs ∧ t.reduce op = xs.foldl op x := by
  induction t with
  | single x => exact ⟨x, [], rfl, rfl⟩
  | pair left right ihl _ =>
    obtain ⟨x, xs, hlist, hreduce⟩ := ihl
    refine ⟨x, xs ++ right.toList, by rw [toList, hlist, List.cons_append], ?_⟩
    rw [reduce, hreduce, op_reduce hassoc, List.foldl_append]

/-- An associative operation does not see the brackets. -/
theorem reduce_eq_of_toList_eq (hassoc : ∀ x y z, op (op x y) z = op x (op y z))
    {t u : Bracketing α} (h : t.toList = u.toList) : t.reduce op = u.reduce op := by
  obtain ⟨x, xs, ht, htr⟩ := t.exists_reduce_eq_foldl hassoc
  obtain ⟨y, ys, hu, hur⟩ := u.exists_reduce_eq_foldl hassoc
  obtain ⟨rfl, rfl⟩ := List.cons.inj (ht.symm.trans (h.trans hu))
  rw [htr, hur]

end Bracketing

namespace Format

variable {fmt : Format} {x y : fmt.Pattern}

/-! ## Ranks -/

/-- The order of the values, in which the negative zero comes before the positive one. -/
def Before (x y : fmt.Pattern) : Prop :=
  lt x y = true ∨ x = fmt.zero true ∧ y = fmt.zero false

/-- The key, with negative patterns one step lower. -/
def rank (x : fmt.Pattern) : ℤ :=
  if isNegative x then -magnitude x - 1 else magnitude x

/-- A pattern is told by its sign and its magnitude bits. -/
theorem ext_magnitude (hsign : isNegative x = isNegative y) (hmag : magnitude x = magnitude y) :
    x = y := by
  rw [← pattern_magnitude x, ← pattern_magnitude y, hsign, hmag]

theorem rank_injective : Function.Injective (rank : fmt.Pattern → ℤ) := by
  intro x y h
  unfold rank at h
  split_ifs at h with hx hy hy
  · exact ext_magnitude (hx.trans hy.symm) (by omega)
  · omega
  · omega
  · rw [Bool.not_eq_true] at hx hy
    exact ext_magnitude (hx.trans hy.symm) (by omega)

theorem eq_zero_iff {negative : Bool} :
    x = fmt.zero negative ↔ isNegative x = negative ∧ magnitude x = 0 := by
  have hpos : 0 < 2 ^ (fmt.exponentBits + fmt.mantissaBits) := Nat.two_pow_pos _
  constructor
  · rintro rfl
    exact ⟨isNegative_pattern negative hpos, magnitude_pattern negative hpos⟩
  · rintro ⟨rfl, hmag⟩
    rw [zero, ← hmag, pattern_magnitude]

theorem before_iff (hx : isNaN x = false) (hy : isNaN y = false) :
    Before x y ↔ rank x < rank y := by
  have hlt : lt x y = true ↔ key x < key y := FloatCompare.lt.holds_iff hx hy
  rw [Before, hlt, eq_zero_iff, eq_zero_iff]
  unfold key rank Datum.signed
  cases isNegative x <;> cases isNegative y <;> simp <;> omega

/-! ## Choices -/

/-- An operation that chooses the operand of the lesser place, or makes the first NaN quiet. -/
structure Chooses (op : fmt.Pattern → fmt.Pattern → fmt.Pattern) (place : fmt.Pattern → ℤ) :
    Prop where
  injective : Function.Injective place
  nan : ∀ x y, isNaN x = true ∨ isNaN y = true → op x y = nanOf [x, y]
  number : ∀ x y, isNaN x = false → isNaN y = false →
    op x y = if place x ≤ place y then x else y

/-- A choice that never goes against the places is the choice by the places. -/
theorem ite_eq_ite_place {place : fmt.Pattern → ℤ} (hplace : Function.Injective place) {p : Prop}
    [Decidable p] (hyes : p → place x ≤ place y) (hno : ¬p → place y ≤ place x) :
    (if p then x else y) = if place x ≤ place y then x else y := by
  by_cases hp : p
  · rw [if_pos hp, if_pos (hyes hp)]
  · rw [if_neg hp]
    split_ifs with hle
    · exact hplace (le_antisymm (hno hp) hle)
    · rfl

theorem rank_of_precedes (hx : isNaN x = false) (hy : isNaN y = false) :
    (precedes x y = true → rank x ≤ rank y) ∧ (¬precedes x y = true → rank y ≤ rank x) := by
  have hlt : lt x y = true ↔ key x < key y := FloatCompare.lt.holds_iff hx hy
  have heq : eq x y = true ↔ key x = key y := FloatCompare.eq.holds_iff hx hy
  have hprecedes : precedes x y = true ↔
      key x < key y ∨ key x = key y ∧ isNegative x = true := by
    rw [precedes, Bool.or_eq_true, Bool.and_eq_true, hlt, heq]
  rw [hprecedes]
  unfold key rank Datum.signed
  cases isNegative x <;> cases isNegative y <;> simp <;> omega

theorem chooses_min : Chooses (min : fmt.Pattern → fmt.Pattern → fmt.Pattern) rank where
  injective := rank_injective
  nan x y h := by
    rw [min_eq_settle, minimum?, if_pos (by simpa using h)]
    rfl
  number x y hx hy := by
    rw [min_eq_settle, minimum?, if_neg (by simp [hx, hy]), settle, Option.getD_some]
    exact ite_eq_ite_place rank_injective (rank_of_precedes hx hy).1 (rank_of_precedes hx hy).2

theorem chooses_max :
    Chooses (max : fmt.Pattern → fmt.Pattern → fmt.Pattern) fun x => -rank x where
  injective := neg_injective.comp rank_injective
  nan x y h := by
    rw [max_eq_settle, maximum?, if_pos (by simpa using h)]
    rfl
  number x y hx hy := by
    rw [max_eq_settle, maximum?, if_neg (by simp [hx, hy]), settle, Option.getD_some, ← ite_not]
    have hinjective : Function.Injective fun x : fmt.Pattern => -rank x :=
      neg_injective.comp rank_injective
    refine ite_eq_ite_place hinjective (fun h => ?_) fun h => ?_
    · exact neg_le_neg ((rank_of_precedes hx hy).2 h)
    · exact neg_le_neg ((rank_of_precedes hx hy).1 (not_not.1 h))

theorem quiet_quiet (x : fmt.Pattern) : quiet (quiet x) = quiet x := by
  rw [quiet, quiet, BitVec.or_assoc, BitVec.or_self]

namespace Chooses

variable {op : fmt.Pattern → fmt.Pattern → fmt.Pattern} {place : fmt.Pattern → ℤ}

/-! ## Laws -/

theorem of_isNaN_left (h : Chooses op place) (hx : isNaN x = true) (y : fmt.Pattern) :
    op x y = quiet x := by
  rw [h.nan x y (Or.inl hx)]
  exact nanOf_of_find? (List.find?_cons_of_pos hx)

theorem of_isNaN_right (h : Chooses op place) (hx : isNaN x = false) (hy : isNaN y = true) :
    op x y = quiet y := by
  rw [h.nan x y (Or.inr hy)]
  refine nanOf_of_find? ?_
  rw [List.find?_cons_of_neg (by simp [hx]), List.find?_cons_of_pos hy]

theorem isNaN_op (h : Chooses op place) (hx : isNaN x = false) (hy : isNaN y = false) :
    isNaN (op x y) = false := by
  rw [h.number x y hx hy]
  split_ifs
  · exact hx
  · exact hy

theorem place_op (h : Chooses op place) (hx : isNaN x = false) (hy : isNaN y = false) :
    place (op x y) = Min.min (place x) (place y) := by
  rw [h.number x y hx hy, min_def]
  split_ifs <;> rfl

theorem assoc (h : Chooses op place) (x y z : fmt.Pattern) : op (op x y) z = op x (op y z) := by
  cases hx : isNaN x with
  | true =>
    rw [h.of_isNaN_left hx, h.of_isNaN_left hx, h.of_isNaN_left (isNaN_quiet hx), quiet_quiet]
  | false =>
    cases hy : isNaN y with
    | true =>
      rw [h.of_isNaN_right hx hy, h.of_isNaN_left hy, h.of_isNaN_left (isNaN_quiet hy),
        h.of_isNaN_right hx (isNaN_quiet hy)]
    | false =>
      have hxy := h.isNaN_op hx hy
      cases hz : isNaN z with
      | true =>
        rw [h.of_isNaN_right hxy hz, h.of_isNaN_right hy hz,
          h.of_isNaN_right hx (isNaN_quiet hz), quiet_quiet]
      | false =>
        have hyz := h.isNaN_op hy hz
        refine h.injective ?_
        rw [h.place_op hxy hz, h.place_op hx hy, h.place_op hx hyz, h.place_op hy hz, min_assoc]

/-- Only of two NaNs the order matters. -/
theorem comm (h : Chooses op place) (hxy : isNaN x = false ∨ isNaN y = false) :
    op x y = op y x := by
  cases hx : isNaN x with
  | true =>
    have hy : isNaN y = false := hxy.resolve_left (by simp [hx])
    rw [h.of_isNaN_left hx, h.of_isNaN_right hy hx]
  | false =>
    cases hy : isNaN y with
    | true => rw [h.of_isNaN_right hx hy, h.of_isNaN_left hy]
    | false =>
      refine h.injective ?_
      rw [h.place_op hx hy, h.place_op hy hx, min_comm]

/-- A NaN that is chosen is quiet. -/
theorem quiet_op (h : Chooses op place) (hnan : isNaN (op x y) = true) :
    quiet (op x y) = op x y := by
  cases hx : isNaN x with
  | true => rw [h.of_isNaN_left hx, quiet_quiet]
  | false =>
    cases hy : isNaN y with
    | true => rw [h.of_isNaN_right hx hy, quiet_quiet]
    | false =>
      rw [h.isNaN_op hx hy] at hnan
      exact absurd hnan Bool.false_ne_true

end Chooses

/-! ## Reductions -/

/-- The first NaN of a list, up to its quiet bit, or else the element of the least place. -/
structure ReducesTo (place : fmt.Pattern → ℤ) (xs : List fmt.Pattern) (z : fmt.Pattern) :
    Prop where
  nan : ∀ n, xs.find? isNaN = some n → isNaN z = true ∧ quiet z = quiet n
  number : (∀ x ∈ xs, isNaN x = false) → z ∈ xs ∧ ∀ x ∈ xs, place z ≤ place x

/-- The first NaN of a list, made quiet, or else the element that comes before all others. -/
structure IsReduction (before : fmt.Pattern → fmt.Pattern → Prop) (xs : List fmt.Pattern)
    (z : fmt.Pattern) : Prop where
  nan : ∀ n, xs.find? isNaN = some n → z = quiet n
  first : (∀ x ∈ xs, isNaN x = false) → z ∈ xs ∧ ∀ x ∈ xs, x = z ∨ before z x

theorem reducesTo_singleton (place : fmt.Pattern → ℤ) (x : fmt.Pattern) :
    ReducesTo place [x] x where
  nan n hn := by
    obtain rfl := List.mem_singleton.1 (List.mem_of_find?_eq_some hn)
    exact ⟨List.find?_some hn, rfl⟩
  number _ := ⟨List.mem_singleton_self x, by simp⟩

namespace Chooses

variable {op : fmt.Pattern → fmt.Pattern → fmt.Pattern} {place : fmt.Pattern → ℤ}

/-- Two parts of a list are reduced first and then their results. -/
theorem reducesTo_append (h : Chooses op place) {xs ys : List fmt.Pattern} {u v : fmt.Pattern}
    (hu : ReducesTo place xs u) (hv : ReducesTo place ys v) :
    ReducesTo place (xs ++ ys) (op u v) where
  nan n hn := by
    rw [List.find?_append] at hn
    cases hxs : xs.find? isNaN with
    | some m =>
      obtain rfl : m = n := by simpa [hxs] using hn
      obtain ⟨hnan, hquiet⟩ := hu.nan m hxs
      rw [h.of_isNaN_left hnan, quiet_quiet]
      exact ⟨isNaN_quiet hnan, hquiet⟩
    | none =>
      have hys : ys.find? isNaN = some n := by simpa [hxs] using hn
      have hnumbers : ∀ x ∈ xs, isNaN x = false := by simpa using hxs
      have hunan : isNaN u = false := hnumbers u (hu.number hnumbers).1
      obtain ⟨hnan, hquiet⟩ := hv.nan n hys
      rw [h.of_isNaN_right hunan hnan, quiet_quiet]
      exact ⟨isNaN_quiet hnan, hquiet⟩
  number hall := by
    obtain ⟨hxs, hys⟩ := List.forall_mem_append.1 hall
    obtain ⟨hmemu, hleu⟩ := hu.number hxs
    obtain ⟨hmemv, hlev⟩ := hv.number hys
    have hplace := h.place_op (hxs u hmemu) (hys v hmemv)
    refine ⟨?_, List.forall_mem_append.2 ⟨fun x hx => ?_, fun x hx => ?_⟩⟩
    · rw [h.number u v (hxs u hmemu) (hys v hmemv)]
      split_ifs
      · exact List.mem_append_left ys hmemu
      · exact List.mem_append_right xs hmemv
    · rw [hplace]
      exact (min_le_left _ _).trans (hleu x hx)
    · rw [hplace]
      exact (min_le_right _ _).trans (hlev x hx)

theorem reducesTo_reduce (h : Chooses op place) (t : Bracketing fmt.Pattern) :
    ReducesTo place t.toList (t.reduce op) := by
  induction t with
  | single x => exact reducesTo_singleton place x
  | pair left right ihl ihr => exact h.reducesTo_append ihl ihr

/-- A list of two elements or more is reduced to its first NaN, made quiet, or its first element in
the order of the places. -/
theorem isReduction_reduce (h : Chooses op place) {before : fmt.Pattern → fmt.Pattern → Prop}
    (hbefore : ∀ x y, isNaN x = false → isNaN y = false → (before x y ↔ place x < place y))
    {t : Bracketing fmt.Pattern} (ht : 2 ≤ t.toList.length) :
    IsReduction before t.toList (t.reduce op) := by
  have hreduces := h.reducesTo_reduce t
  constructor
  · intro n hn
    obtain ⟨hnan, hquiet⟩ := hreduces.nan n hn
    cases t with
    | single x => exact absurd ht (by simp [Bracketing.toList])
    | pair left right => exact (h.quiet_op hnan).symm.trans hquiet
  · intro hall
    obtain ⟨hmem, hle⟩ := hreduces.number hall
    refine ⟨hmem, fun x hx => ?_⟩
    rw [hbefore _ _ (hall _ hmem) (hall x hx)]
    exact (hle x hx).eq_or_lt.imp (fun heq => (h.injective heq).symm) id

end Chooses

/-- Minimum and maximum are associative. However the brackets are set, they reduce a list of two
elements or more to its first NaN, made quiet, or else to the element before, or after, all others.
They are commutative but for two NaNs. -/
theorem reductions_closed_form (fmt : Format) :
    (∀ x y z : fmt.Pattern, min (min x y) z = min x (min y z) ∧
      max (max x y) z = max x (max y z)) ∧
    (∀ t u : Bracketing fmt.Pattern, t.toList = u.toList →
      t.reduce min = u.reduce min ∧ t.reduce max = u.reduce max) ∧
    (∀ t : Bracketing fmt.Pattern, 2 ≤ t.toList.length →
      IsReduction Before t.toList (t.reduce min) ∧
        IsReduction (fun x y => Before y x) t.toList (t.reduce max)) ∧
    ∀ x y : fmt.Pattern, ¬(isNaN x = true ∧ isNaN y = true) →
      min x y = min y x ∧ max x y = max y x := by
  refine ⟨fun x y z => ⟨chooses_min.assoc x y z, chooses_max.assoc x y z⟩, fun t u h => ⟨?_, ?_⟩,
    fun t ht => ⟨?_, ?_⟩, fun x y h => ?_⟩
  · exact Bracketing.reduce_eq_of_toList_eq chooses_min.assoc h
  · exact Bracketing.reduce_eq_of_toList_eq chooses_max.assoc h
  · exact chooses_min.isReduction_reduce (fun x y => before_iff) ht
  · refine chooses_max.isReduction_reduce (fun x y hx hy => ?_) ht
    rw [before_iff hy hx, neg_lt_neg_iff]
  · have hnumber : isNaN x = false ∨ isNaN y = false := by
      rwa [← Bool.not_eq_true, ← Bool.not_eq_true, ← not_and_or]
    exact ⟨chooses_min.comm hnumber, chooses_max.comm hnumber⟩

/-- Two zeros and a one, bracketed from the left and from the right. -/
def zerosAndOne : Bracketing binary32.Pattern × Bracketing binary32.Pattern :=
  (.pair (.pair (.single 0x00000000#32) (.single 0x80000000#32)) (.single 0x3F800000#32),
    .pair (.single 0x00000000#32) (.pair (.single 0x80000000#32) (.single 0x3F800000#32)))

/-- A one, a negative signalling NaN and a quiet one. -/
def oneAndNaNs : Bracketing binary32.Pattern :=
  .pair (.single 0x3F800000#32) (.pair (.single 0xFFA00000#32) (.single 0x7FC00001#32))

/-- The negative zero is the least of the zeros, and the signalling NaN comes out quiet. -/
theorem reductions_closed_form_zeros :
    zerosAndOne.1.toList = zerosAndOne.2.toList ∧
      zerosAndOne.1.reduce min = zerosAndOne.2.reduce min ∧
      2 ≤ zerosAndOne.2.toList.length ∧
      (∀ x ∈ zerosAndOne.2.toList, x = zerosAndOne.2.reduce min ∨
        Before (zerosAndOne.2.reduce min) x) ∧
      2 ≤ oneAndNaNs.toList.length ∧ oneAndNaNs.reduce max = 0xFFE00000#32 ∧
      ¬(@isNaN binary32 0x3F800000#32 = true ∧ @isNaN binary32 0xFFA00000#32 = true) ∧
      @min binary32 0x3F800000#32 0xFFA00000#32 = @min binary32 0xFFA00000#32 0x3F800000#32 := by
  obtain ⟨-, hbrackets, hclosed, hcomm⟩ := reductions_closed_form binary32
  have hlist : zerosAndOne.1.toList = zerosAndOne.2.toList := rfl
  have hlen : 2 ≤ zerosAndOne.2.toList.length := by decide
  have hnumbers : ∀ x ∈ zerosAndOne.2.toList, isNaN x = false := by
    have hall : zerosAndOne.2.toList.all (fun x => !isNaN x) = true := by decide +kernel
    simpa using hall
  have hlen' : 2 ≤ oneAndNaNs.toList.length := by decide
  have hfirst : oneAndNaNs.toList.find? isNaN = some 0xFFA00000#32 := by decide +kernel
  have hnumber : ¬(@isNaN binary32 0x3F800000#32 = true ∧
    @isNaN binary32 0xFFA00000#32 = true) := by decide
  refine ⟨hlist, (hbrackets _ _ hlist).1, hlen, ((hclosed _ hlen).1.first hnumbers).2, hlen', ?_,
    hnumber, (hcomm _ _ hnumber).1⟩
  exact ((hclosed _ hlen').2.nan 0xFFA00000#32 hfirst).trans (by decide +kernel)

end Format

end Lanewise
