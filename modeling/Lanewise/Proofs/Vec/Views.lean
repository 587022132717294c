import Mathlib.Logic.Function.Basic
import Lanewise.Proofs.Vec.Bits
import Lanewise.Proofs.Vec.Bytes

/-!
# Views of a vector

A vector is sixteen bytes, and can be looked at as the lanes of a shape, as one number and as two
halves. The lanes are decoded chunk by chunk, the number from all bytes at once, and the halves are
shifted out of the number. All of this cuts the same number of 128 bits into words of equal width
(`Vec.IsSliced`), so each view can be undone, and any words of the right width and number are the
view of a vector (`Vec.views_bijective`). Floats are bit patterns here, so a NaN keeps its payload
in every view.

The two halves are the lanes of the shape of two integers (`Vec.toPair_eq`). A list of bytes is
read back exactly if it has the right length (`Bytes.IsCoding`), which also holds of the bytes of
a float.
-/

namespace Lanewise

/-! ## Lists of bytes -/

namespace Bytes

/-- Lists of `n` bytes are the codes of values, one for each value, and every other list is
refused; `kind` names the values. -/
structure IsCoding {α : Type} (kind : String) (n : ℕ) (encode : α → List (BitVec 8))
    (decode : List (BitVec 8) → Except Cause α) : Prop where
  decode_encode : ∀ x, decode (encode x) = .ok x
  encode_decode : ∀ bytes : List (BitVec 8), bytes.length = n →
    ∃ x, decode bytes = .ok x ∧ encode x = bytes
  refused : ∀ bytes : List (BitVec 8), bytes.length ≠ n →
    ∃ cause, decode bytes = .error cause ∧
      cause.toError = ⟨.type, 1009, kind ++ " requires exactly " ++ toString n ++ " bytes"⟩

variable {kind : String} {n : ℕ}

theorem isCoding (kind : String) {w : ℕ} (h : n * 8 = w) :
    IsCoding kind n (fun x : BitVec w => ofBits x n) (readBits kind w n) where
  decode_encode := readBits_ofBits kind h
  encode_decode := by
    rintro bytes rfl
    exact ⟨_, if_pos rfl, Word.slices_ofNat_pack bytes h⟩
  refused bytes hbytes := ⟨_, if_neg hbytes, rfl⟩

end Bytes

namespace Vec

theorem isCoding_bytes : Bytes.IsCoding "v128" 16 toBytes ofBytes where
  decode_encode v := by
    rw [ofBytes, if_pos v.length_toBytes, ofByteList_toBytes]
  encode_decode bytes hbytes :=
    ⟨ofByteList bytes, if_pos hbytes, toBytes_ofByteList hbytes⟩
  refused bytes hbytes := ⟨_, if_neg hbytes, rfl⟩

/-! ## Halves -/

/-- The halves are the lanes of the shape of two integers. -/
theorem toPair_eq (v : Vec) : v.toPair = (v.lane IntShape.i64x2 0, v.lane IntShape.i64x2 1) := by
  refine Prod.ext (BitVec.eq_of_toNat_eq ?_) (BitVec.eq_of_toNat_eq ?_)
  · rw [toNat_lane, toPair, BitVec.toNat_setWidth, Nat.zero_mul, Nat.pow_zero, Nat.div_one]
  · rw [toNat_lane, toPair, BitVec.toNat_setWidth, BitVec.toNat_ushiftRight,
      Nat.shiftRight_eq_div_pow, Nat.one_mul]

/-! ## All views -/

/-- The words of each view are slices of the 128 bits. -/
structure IsSliced (v : Vec) : Prop where
  lanes : ∀ s : Shape, (v.lanes s).toList.map BitVec.toNat =
    (List.range s.lanes).map fun k => v.bits.toNat / 2 ^ (k * s.laneBits) % 2 ^ s.laneBits
  low : v.toPair.1.toNat = v.bits.toNat % 2 ^ (64 : ℕ)
  high : v.toPair.2.toNat = v.bits.toNat / 2 ^ (64 : ℕ)
  bytes : v.toBytes.map BitVec.toNat =
    (List.range 16).map fun k => v.bits.toNat / 2 ^ (8 * k) % 256

theorem isSliced (v : Vec) : v.IsSliced where
  lanes s := by
    rw [toList_lanes, List.map_map]
    exact List.map_congr_left fun k _ => v.toNat_lane s k
  low := by
    rw [toPair_eq, toNat_lane, Nat.zero_mul, Nat.pow_zero, Nat.div_one]
  high := by
    have hlt : v.bits.toNat / 2 ^ 64 < 2 ^ 64 := Nat.div_lt_of_lt_mul v.bits.isLt
    rw [toPair_eq, toNat_lane, Nat.one_mul, Nat.mod_eq_of_lt hlt]
  bytes := by
    rw [toBytes_eq_map_byte, List.map_map]
    refine List.map_congr_left fun k _ => ?_
    rw [Function.comp_apply, byte_eq_slice, Word.toNat_slice, Nat.mul_comm]

/-- Every view cuts the same number of 128 bits, and building a vector of parts is the inverse of
viewing it. Lists of bytes are the views of vectors, and of floats, exactly if they have the right
length. -/
theorem views_bijective :
    (∀ v : Vec, v.IsSliced) ∧
    (∀ s : Shape, Function.LeftInverse (ofLanes s) (fun v => v.lanes s) ∧
      Function.RightInverse (ofLanes s) (fun v => v.lanes s)) ∧
    (Function.LeftInverse ofBits bits ∧ Function.RightInverse ofBits bits) ∧
    (Function.LeftInverse (fun halves => ofPair halves.1 halves.2) toPair ∧
      Function.RightInverse (fun halves => ofPair halves.1 halves.2) toPair) ∧
    Bytes.IsCoding "v128" 16 toBytes ofBytes ∧
    Bytes.IsCoding "FloatBits32" 4 (@Format.toBytes .binary32) (Format.ofBytes .binary32) ∧
    Bytes.IsCoding "FloatBits64" 8 (@Format.toBytes .binary64) (Format.ofBytes .binary64) := by
  refine ⟨isSliced, fun s => ⟨fun v => v.ofLanes_lanes s, lanes_ofLanes s⟩,
    ⟨ofBits_bits, bits_ofBits⟩, ⟨ofPair_toPair, fun halves => ?_⟩, isCoding_bytes, ?_, ?_⟩
  · exact toPair_ofPair halves.1 halves.2
  · exact Bytes.isCoding "FloatBits32" rfl
  · exact Bytes.isCoding "FloatBits64" rfl

end Vec

end Lanewise
