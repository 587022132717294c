import Lanewise.Proofs.Float.Text
import Lanewise.Proofs.Vec.Literals

/-!
# The text of a vector reads back

Each word of the text of a vector is a literal of its lane (`Shape.readLane_laneText`), and no
word has a space in it. So the text of a vector in any shape splits at its spaces into the name
of the shape and one word for each lane, and these words read back as the same 128 bits
(`Vec.ofLiterals_split_text`).
-/

namespace Lanewise

namespace Shape

open Literal

/-! ## Words -/

/-- All the hexadecimal digits of an integer lane, as a literal. -/
theorem readInteger_hexDigits {w : ℕ} (hpos : 0 < w / 4) (hfour : w / 4 * 4 = w) (hw : w ≤ 128)
    (x : BitVec w) : readInteger w ("0x" ++ String.ofList (hexDigits x)) = .ok x := by
  have hlist : ("0x" ++ String.ofList (hexDigits x)).toList = '0' :: 'x' :: hexDigits x := by
    rw [String.toList_append]
    exact congrArg ('0' :: 'x' :: ·) String.toList_ofList
  have hradix : 16 ^ (w / 4) = 2 ^ w := by
    rw [← hfour, Nat.mul_div_cancel _ (by decide), Nat.mul_comm, Nat.pow_mul]
  have hfits : x.toNat < 2 ^ 128 := x.isLt.trans_le (Nat.pow_le_pow_right Nat.two_pos hw)
  have hread : readDigits 16 (hexDigits x) = .ok x.toNat :=
    readDigits_fixed Numeral.isRadix_sixteen hpos (hradix ▸ x.isLt) hfits
  have hsplit : splitSign ('0' :: 'x' :: hexDigits x) = (none, '0' :: 'x' :: hexDigits x) := rfl
  rw [readInteger, hlist, readIntegerChars, hsplit]
  simp only [readMagnitude, hread, bind, Except.bind, inRange, twosComplement, x.isLt]
  simp

/-- A lane is read back from its word. -/
theorem readLane_laneText (s : Shape) (x : BitVec s.laneBits) :
    s.readLane (s.laneText x) = .ok x := by
  match s with
  | int s =>
    exact readInteger_hexDigits (by cases s <;> decide) (by cases s <;> decide)
      (by cases s <;> decide) x
  | float s => exact Format.readFloat_text (by cases s <;> decide) (by cases s <;> decide) x

theorem space_not_mem_laneText (s : Shape) (x : BitVec s.laneBits) :
    ' ' ∉ (s.laneText x).toList := by
  match s with
  | int s =>
    rw [laneText, String.toList_append, List.mem_append, not_or]
    refine ⟨by decide, fun h => ?_⟩
    have hdigit : IsDigit 16 ' ' :=
      isDigit_of_mem_fixed Numeral.isRadix_sixteen (String.toList_ofList ▸ h)
    exact absurd hdigit (by decide)
  | float s =>
    rw [laneText, Format.text, String.toList_ofList]
    exact Format.space_not_mem_toChars x

theorem space_not_mem_name (s : Shape) : ' ' ∉ s.name.toList := by
  rcases s with s | s <;> cases s <;> decide

end Shape

namespace Vec

/-! ## Vectors -/

theorem length_words (v : Vec) (s : Shape) : (v.words s).length = s.lanes := by
  rw [words, List.length_map, Vector.length_toList]

/-- The words of lanes are read back one after the other. -/
theorem readLanes_map_laneText (s : Shape) (index : ℕ) (x : List (BitVec s.laneBits)) :
    readLanes s index (x.map s.laneText) = .ok x := by
  refine readLanes_of_map ?_ index
  rw [List.map_map]
  exact List.map_congr_left fun y _ => s.readLane_laneText y

theorem ofLiterals_words (v : Vec) (s : Shape) : ofLiterals s (v.words s) = .ok v := by
  rw [ofLiterals, if_pos (v.length_words s), words, readLanes_map_laneText]
  exact congrArg Except.ok (v.ofLanes_lanes s)

/-- The spaces in the text of a vector are the ones between its words. -/
theorem split_text (v : Vec) (s : Shape) :
    ((v.text s).split ' ').toList.map (·.copy) = s.name :: v.words s := by
  have hspace : ∀ word ∈ s.name :: v.words s, ' ' ∉ word.toList := by
    intro word hword
    rcases List.mem_cons.1 hword with rfl | hword
    · exact s.space_not_mem_name
    · obtain ⟨x, -, rfl⟩ := List.mem_map.1 hword
      exact s.space_not_mem_laneText x
  have hsplit := String.toList_split_intercalate hspace
  rwa [if_neg (List.cons_ne_nil _ _)] at hsplit

/-- The text of a vector, split at its spaces, is the name of the shape and one literal for each
lane, and the literals read back as the vector. -/
theorem ofLiterals_split_text (v : Vec) (s : Shape) :
    ∃ words : List String, ((v.text s).split ' ').toList.map (·.copy) = s.name :: words ∧
      words.length = s.lanes ∧ ofLiterals s words = .ok v :=
  ⟨v.words s, v.split_text s, v.length_words s, v.ofLiterals_words s⟩

end Vec

end Lanewise
