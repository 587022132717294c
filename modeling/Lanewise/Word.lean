import Lanewise.Power

/-!
# Words in positional order

A number cut into words of equal width, the least significant word first.

* `Word.slice` is word `k` of a longer bit string.
* `Word.pack` is the number a list of words makes up. It undoes the cutting
  (`pack_map_slice`) and is undone by it (`pack_div_mod`, `slices_ofNat_pack`).
* Words that are themselves cut into words make up the same number (`pack_flatMap_slices`).
-/

namespace Lanewise

namespace Word

/-- Word `k` of width `w`. -/
def slice {n : Nat} (x : BitVec n) (w k : Nat) : BitVec w :=
  x.extractLsb' (k * w) w

/-- The number whose digits to the base `2 ^ w` are the words. -/
def pack {w : Nat} : List (BitVec w) → Nat
  | [] => 0
  | x :: xs => x.toNat + 2 ^ w * pack xs

/-- The first `n` words. -/
def slices {m : Nat} (x : BitVec m) (w n : Nat) : List (BitVec w) :=
  (List.range n).map (slice x w)

theorem toNat_slice {n : Nat} (x : BitVec n) (w k : Nat) :
    (slice x w k).toNat = x.toNat / 2 ^ (k * w) % 2 ^ w := by
  simp [slice, Nat.shiftRight_eq_div_pow]

theorem pack_lt {w : Nat} : ∀ xs : List (BitVec w), pack xs < 2 ^ (xs.length * w)
  | [] => by simp [pack]
  | x :: xs => by
    have hx := x.isLt
    have ih := Nat.succ_le_of_lt (pack_lt xs)
    have hmul : 2 ^ w * (pack xs + 1) ≤ 2 ^ w * 2 ^ (xs.length * w) := Nat.mul_le_mul_left _ ih
    rw [pack, List.length_cons, two_pow_succ_mul]
    rw [Nat.mul_add] at hmul
    omega

/-- Word `k` of the number packed from a list is the list's entry `k`. -/
theorem pack_div_mod {w : Nat} :
    ∀ (xs : List (BitVec w)) (k : Nat) (h : k < xs.length),
      pack xs / 2 ^ (k * w) % 2 ^ w = xs[k].toNat
  | x :: xs, 0, _ => by
    simp only [Nat.zero_mul, Nat.pow_zero, Nat.div_one, pack, List.getElem_cons_zero]
    rw [Nat.add_mul_mod_self_left, Nat.mod_eq_of_lt x.isLt]
  | x :: xs, k + 1, h => by
    have hpos : 0 < 2 ^ w := Nat.two_pow_pos w
    have ih := pack_div_mod xs k (by simpa using h)
    have hdiv : (x.toNat + 2 ^ w * pack xs) / 2 ^ w = pack xs := by
      rw [Nat.add_mul_div_left _ _ hpos, Nat.div_eq_of_lt x.isLt, Nat.zero_add]
    rw [pack, two_pow_succ_mul, ← Nat.div_div_eq_div_mul, hdiv, ih, List.getElem_cons_succ]

/-- Words past the end of the list count as zero. -/
theorem toNat_getD {w : Nat} (xs : List (BitVec w)) (k : Nat) :
    (xs.getD k 0#w).toNat = pack xs / 2 ^ (k * w) % 2 ^ w := by
  by_cases h : k < xs.length
  · rw [List.getD_eq_getElem?_getD, List.getElem?_eq_getElem h, Option.getD_some, pack_div_mod]
  · have hle : 2 ^ (xs.length * w) ≤ 2 ^ (k * w) :=
      Nat.pow_le_pow_right Nat.two_pos (Nat.mul_le_mul_right w (Nat.le_of_not_lt h))
    have hlt : pack xs < 2 ^ (k * w) := Nat.lt_of_lt_of_le (pack_lt xs) hle
    rw [List.getD_eq_getElem?_getD, List.getElem?_eq_none (Nat.le_of_not_lt h), Option.getD_none,
      BitVec.toNat_zero, Nat.div_eq_of_lt hlt, Nat.zero_mod]

/-- A number below `2 ^ (n * w)` is made up of its first `n` words. -/
theorem pack_map_slice {w m : Nat} (x : BitVec m) :
    ∀ n : Nat, pack (slices x w n) = x.toNat % 2 ^ (n * w) := by
  suffices key : ∀ n k : Nat,
      pack ((List.range' k n).map (slice x w)) = x.toNat / 2 ^ (k * w) % 2 ^ (n * w) by
    intro n
    have h := key n 0
    rw [← List.range_eq_range'] at h
    simpa [slices] using h
  intro n
  induction n with
  | zero => intro k; simp [pack, Nat.mod_one]
  | succ n ih =>
    intro k
    have hstep : 2 ^ ((k + 1) * w) = 2 ^ (k * w) * 2 ^ w := by
      rw [Nat.add_mul, Nat.one_mul, Nat.pow_add]
    rw [List.range'_succ, List.map_cons, pack, toNat_slice, ih (k + 1), hstep,
      ← Nat.div_div_eq_div_mul, two_pow_succ_mul, Nat.mod_mul]

theorem length_slices {m : Nat} (x : BitVec m) (w n : Nat) : (slices x w n).length = n := by
  simp [slices]

/-- Words packed into a number are the slices of the number. -/
theorem slices_ofNat_pack {n w : Nat} (xs : List (BitVec w)) (h : xs.length * w = n) :
    slices (BitVec.ofNat n (pack xs)) w xs.length = xs := by
  have hfits : pack xs < 2 ^ n := h ▸ pack_lt xs
  refine List.ext_getElem (length_slices ..) fun k _ hk => BitVec.eq_of_toNat_eq ?_
  simp only [slices, List.getElem_map, List.getElem_range]
  rw [toNat_slice, BitVec.toNat_ofNat, Nat.mod_eq_of_lt hfits, pack_div_mod xs k hk]

/-! ## Lists of words -/

theorem pack_append {w : Nat} (xs ys : List (BitVec w)) :
    pack (xs ++ ys) = pack xs + 2 ^ (xs.length * w) * pack ys := by
  induction xs with
  | nil => simp [pack]
  | cons x xs ih =>
    rw [List.cons_append, pack, pack, ih, List.length_cons, two_pow_succ_mul, Nat.mul_add,
      Nat.mul_assoc, Nat.add_assoc]

/-- Cutting each word into narrower words does not change the number. -/
theorem pack_flatMap_slices {m n w : Nat} (h : n * w = m) (xs : List (BitVec m)) :
    pack (xs.flatMap (slices · w n)) = pack xs := by
  induction xs with
  | nil => rfl
  | cons x xs ih =>
    rw [List.flatMap_cons, pack_append, pack_map_slice, length_slices, ih, h,
      Nat.mod_eq_of_lt x.isLt, pack]

end Word

end Lanewise
