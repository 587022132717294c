import Lanewise.Proofs.Vec.Text

/-!
# Hexadecimal texts of a vector

The last digits of a number are those of its rest modulo a power of the radix, and the digits before
them are those of the quotient (`Numeral.fixed_add`, `Numeral.fixed_mod`). So a number that is cut
into words of whole digits has the digits of its words, the last word first
(`Shape.flatMap_hexDigits_slices`).

The text of a vector in an integer shape writes each lane with all its digits. What is left of it
without the name and the prefixes (`Vec.laneDigits`) is one group of digits for each lane, and the
groups in reverse order are the digits of the 128 bits, whatever the shape
(`Vec.hex_texts_agree`).
-/

namespace Lanewise

namespace Numeral

/-! ## Digits of a number -/

/-- The digits before the last `n` ones are those of the quotient. -/
theorem fixed_add (radix m n x : ℕ) :
    fixed radix (m + n) x = fixed radix m (x / radix ^ n) ++ fixed radix n x := by
  induction n generalizing x with
  | zero => simp [fixed]
  | succ n ih =>
    rw [← Nat.add_assoc, fixed, ih, Nat.div_div_eq_div_mul, ← Nat.pow_succ', fixed,
      List.append_assoc]

/-- Only the last `n` digits are written. -/
theorem fixed_mod (radix n x : ℕ) : fixed radix n (x % radix ^ n) = fixed radix n x := by
  induction n generalizing x with
  | zero => rfl
  | succ n ih =>
    rw [fixed, Nat.pow_succ', Nat.mod_mul_right_mod, Nat.mod_mul_right_div_self, ih, fixed]

/-- Hexadecimal digits are written with small letters. -/
theorem fixed_sixteen_subset (n x : ℕ) : fixed 16 n x ⊆ "0123456789abcdef".toList := by
  have hdigit : ∀ d : Fin 16, Nat.digitChar d ∈ "0123456789abcdef".toList := by decide
  induction n generalizing x with
  | zero => exact List.nil_subset _
  | succ n ih =>
    rw [fixed, List.append_subset]
    exact ⟨ih _, List.cons_subset.2 ⟨hdigit ⟨x % 16, Nat.mod_lt _ (by decide)⟩, List.nil_subset _⟩⟩

end Numeral

namespace Shape

open Numeral

/-! ## Digits of words -/

/-- The digits of a word whose width is a whole number of digits. -/
theorem hexDigits_slice {m w count : ℕ} (hw : w = count * 4) (x : BitVec m) (k : ℕ) :
    hexDigits (Word.slice x w k) = fixed 16 count (x.toNat / 16 ^ (k * count)) := by
  have hpow (j : ℕ) : 2 ^ (j * 4) = 16 ^ j := by
    rw [Nat.mul_comm, Nat.pow_mul]
  rw [hexDigits, Word.toNat_slice, hw, Nat.mul_div_cancel _ (by decide), hpow, ← Nat.mul_assoc,
    hpow, fixed_mod]

/-- The words of a number have its digits, the last word first. -/
theorem flatMap_hexDigits_slices {m w count : ℕ} (hw : w = count * 4) (x : BitVec m) (n : ℕ) :
    (Word.slices x w n).reverse.flatMap hexDigits = fixed 16 (n * count) x.toNat := by
  induction n with
  | zero => simp [Word.slices, fixed]
  | succ n ih =>
    have hsucc : Word.slices x w (n + 1) = Word.slices x w n ++ [Word.slice x w n] := by
      rw [Word.slices, List.range_succ, List.map_append]
      rfl
    rw [hsucc, List.reverse_append, List.reverse_singleton, List.singleton_append,
      List.flatMap_cons, ih, hexDigits_slice hw, Nat.succ_mul, Nat.add_comm (n * count), fixed_add]

end Shape

namespace Vec

open Numeral

/-! ## Lanes -/

/-- The digits of the lanes in the text of a vector : the words after the name without their
prefixes. -/
def laneDigits (text : String) : List (List Char) :=
  ((text.split ' ').toList.map (·.copy)).tail.map fun word => word.toList.drop "0x".length

variable (v : Vec) (s : IntShape)

theorem words_eq : v.words s =
    (v.lanes s).toList.map fun x => "0x" ++ String.ofList (Shape.hexDigits x) :=
  rfl

theorem laneDigits_text : laneDigits (v.text s) = (v.lanes s).toList.map Shape.hexDigits := by
  rw [laneDigits, split_text, List.tail_cons, words_eq, List.map_map]
  refine List.map_congr_left fun x _ => ?_
  rw [Function.comp_apply, String.toList_append, List.drop_left', String.toList_ofList]
  rfl

/-- The groups of digits, the last lane first, are the digits of the 128 bits. -/
theorem flatten_laneDigits : (laneDigits (v.text s)).reverse.flatten = Shape.hexDigits v.bits := by
  have hdigits : s.laneBits = s.laneBits / 4 * 4 := by cases s <;> rfl
  have hall : s.lanes * (s.laneBits / 4) = 32 := by cases s <;> rfl
  have hslices : (v.lanes s).toList = Word.slices v.bits s.laneBits s.lanes := by
    rw [toList_lanes, Word.slices]
    exact List.map_congr_left fun k _ => v.lane_eq_slice s k
  rw [laneDigits_text, ← List.map_reverse, ← List.flatMap_def, hslices,
    Shape.flatMap_hexDigits_slices hdigits, hall]
  rfl

theorem lowerHex_false : v.lowerHex false = v.hex :=
  String.empty_append

theorem toList_hex : v.hex.toList = Shape.hexDigits v.bits :=
  String.toList_ofList

/-! ## All texts -/

/-- In every integer shape, the text of a vector is the name and a prefixed group of digits for each
lane. The groups, the last lane first, are the 32 digits of the 128 bits, which the alternate form
puts a prefix before. So texts in different shapes group the same digits. The text without a shape
is the one of four lanes. -/
theorem hex_texts_agree (v : Vec) :
    (∀ s : IntShape,
      ((v.text s).split ' ').toList.map (·.copy) =
        s.name :: (laneDigits (v.text s)).map (fun digits => "0x" ++ String.ofList digits) ∧
      (laneDigits (v.text s)).map List.length = List.replicate s.lanes (s.laneBits / 4) ∧
      String.ofList (laneDigits (v.text s)).reverse.flatten = v.lowerHex false) ∧
    v.lowerHex true = "0x" ++ v.lowerHex false ∧
    (v.lowerHex false).length = 32 ∧
    (v.lowerHex false).toList ⊆ "0123456789abcdef".toList ∧
    Numeral.value 16 (v.lowerHex false).toList = v.bits.toNat ∧
    v.display = v.text IntShape.i32x4 ∧
    ∀ s t : IntShape, (laneDigits (v.text s)).reverse.flatten =
      (laneDigits (v.text t)).reverse.flatten := by
  refine ⟨fun s => ⟨?_, ?_, ?_⟩, ?_, ?_, ?_, ?_, rfl, fun s t => ?_⟩
  · rw [split_text, laneDigits_text, words_eq, List.map_map]
    rfl
  · rw [laneDigits_text, List.map_map, List.eq_replicate_iff, List.length_map,
      Vector.length_toList]
    refine ⟨rfl, fun n hn => ?_⟩
    obtain ⟨x, -, rfl⟩ := List.mem_map.1 hn
    exact length_fixed ..
  · rw [flatten_laneDigits, lowerHex_false, hex]
  · rw [lowerHex_false]
    rfl
  · rw [lowerHex_false, ← String.length_toList, toList_hex, Shape.hexDigits, length_fixed]
  · rw [lowerHex_false, toList_hex]
    exact fixed_sixteen_subset _ _
  · rw [lowerHex_false, toList_hex, Shape.hexDigits, value_fixed isRadix_sixteen]
    exact Nat.mod_eq_of_lt v.bits.isLt
  · rw [flatten_laneDigits, flatten_laneDigits]

end Vec

end Lanewise
