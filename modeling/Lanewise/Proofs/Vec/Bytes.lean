import Mathlib.Tactic.Ring
import Lanewise.Vec.Basic

/-!
# The bytes of a vector

All shapes cut a vector into the same bytes. A lane is made of the bytes from
`i * laneBytes` on (`Vec.lane_eq_laneOfBytes`), and replacing it changes these bytes and no
other, although the whole vector is decoded and encoded (`Vec.byte_replaceLane`).
-/

namespace Lanewise

/-! ## Words of words -/

namespace Word

/-- A word of a word is a word of the whole. -/
theorem slice_slice {m n w width : ℕ} (x : BitVec m) (h : n * w = width) {j : ℕ} (hj : j < n)
    (i : ℕ) : slice (slice x width i) w j = slice x w (i * n + j) := by
  refine BitVec.eq_of_getLsbD_eq fun l hl => ?_
  have hinside : j * w + l < width := by
    rw [← h]
    calc j * w + l < (j + 1) * w := by rw [Nat.succ_mul]; omega
      _ ≤ n * w := Nat.mul_le_mul_right w hj
  have hplace : i * width + (j * w + l) = (i * n + j) * w + l := by
    rw [← h]
    ring
  rw [slice, slice, slice, BitVec.getLsbD_extractLsb', BitVec.getLsbD_extractLsb',
    BitVec.getLsbD_extractLsb', decide_eq_true hinside, Bool.true_and, hplace]

/-- The low words stay when the number of bits changes. -/
theorem slice_setWidth {m n w j : ℕ} (x : BitVec m) (h : (j + 1) * w ≤ n) :
    slice (x.setWidth n) w j = slice x w j := by
  refine BitVec.eq_of_getLsbD_eq fun l hl => ?_
  have hinside : j * w + l < n := by
    rw [Nat.succ_mul] at h
    omega
  rw [slice, slice, BitVec.getLsbD_extractLsb', BitVec.getLsbD_extractLsb',
    BitVec.getLsbD_setWidth, decide_eq_true hinside, Bool.true_and]

end Word

/-! ## Bytes of lanes -/

namespace Shape

variable (s : Shape)

theorem laneBytes_pos : 0 < s.laneBytes := by
  rcases s with s | s <;> cases s <;> decide

theorem div_laneBytes_lt {k : ℕ} (h : k < 16) : k / s.laneBytes < s.lanes := by
  refine Nat.div_lt_of_lt_mul ?_
  rwa [Nat.mul_comm, s.lanes_mul_laneBytes]

/-- The lane that some bytes make up, the first one least significant. -/
def laneOfBytes (byte : ℕ → BitVec 8) (i : ℕ) : BitVec s.laneBits :=
  BitVec.ofNat _ (Word.pack ((List.range s.laneBytes).map fun j => byte (i * s.laneBytes + j)))

/-- Only the bytes of a vector matter. -/
theorem laneOfBytes_congr {f g : ℕ → BitVec 8} (h : ∀ k < 16, f k = g k) {i : ℕ}
    (hi : i < s.lanes) : s.laneOfBytes f i = s.laneOfBytes g i := by
  have hbytes : ((List.range s.laneBytes).map fun j => f (i * s.laneBytes + j)) =
      (List.range s.laneBytes).map fun j => g (i * s.laneBytes + j) := by
    refine List.map_congr_left fun j hj => h _ ?_
    have hj := List.mem_range.1 hj
    calc i * s.laneBytes + j < (i + 1) * s.laneBytes := by rw [Nat.succ_mul]; omega
      _ ≤ s.lanes * s.laneBytes := Nat.mul_le_mul_right _ hi
      _ = 16 := s.lanes_mul_laneBytes
  rw [laneOfBytes, hbytes, laneOfBytes]

end Shape

namespace Vec

variable {s : Shape} {v w : Vec} {k : ℕ}

def byte (v : Vec) (k : ℕ) : BitVec 8 :=
  v.toBytes.getD k 0#8

theorem byte_eq_slice (v : Vec) (k : ℕ) : v.byte k = Word.slice v.bits 8 k :=
  BitVec.eq_of_toNat_eq (by rw [byte, Word.toNat_getD, Word.toNat_slice, toNat_bits])

theorem toBytes_eq_map_byte (v : Vec) : v.toBytes = (List.range 16).map v.byte := by
  refine List.ext_getElem (by simp [length_toBytes]) fun k hk _ => ?_
  simp [byte, hk]

theorem ext_byte (h : ∀ k < 16, v.byte k = w.byte k) : v = w := by
  rw [← ofByteList_toBytes v, ← ofByteList_toBytes w, toBytes_eq_map_byte, toBytes_eq_map_byte]
  exact congrArg ofByteList (List.map_congr_left fun k hk => h k (List.mem_range.1 hk))

theorem slice_lane (s : Shape) (v : Vec) (i : ℕ) {j : ℕ} (hj : j < s.laneBytes) :
    Word.slice (v.lane s i) 8 j = v.byte (i * s.laneBytes + j) := by
  rw [lane_eq_slice, byte_eq_slice, Word.slice_slice v.bits s.laneBytes_mul_eight hj]

/-- Every byte is in a lane. -/
theorem slice_lane_mod (s : Shape) (v : Vec) (k : ℕ) :
    Word.slice (v.lane s (k / s.laneBytes)) 8 (k % s.laneBytes) = v.byte k := by
  rw [slice_lane s v _ (Nat.mod_lt _ s.laneBytes_pos), Nat.div_add_mod']

/-- A lane is made of its bytes. -/
theorem lane_eq_laneOfBytes (s : Shape) (v : Vec) (i : ℕ) :
    v.lane s i = s.laneOfBytes v.byte i := by
  have hbytes : Word.slices (v.lane s i) 8 s.laneBytes =
      (List.range s.laneBytes).map fun j => v.byte (i * s.laneBytes + j) :=
    List.map_congr_left fun j hj => slice_lane s v i (List.mem_range.1 hj)
  rw [Shape.laneOfBytes, ← hbytes, Word.pack_map_slice, s.laneBytes_mul_eight,
    Nat.mod_eq_of_lt (v.lane s i).isLt, BitVec.ofNat_toNat, BitVec.setWidth_eq]

/-- A replaced lane changes the bytes it covers and no other. -/
theorem byte_replaceLane {i : ℕ} {x : BitVec s.laneBits} (h : replaceLane s i x v = .ok w)
    (hk : k < 16) :
    w.byte k = if i * s.laneBytes ≤ k ∧ k < (i + 1) * s.laneBytes
      then Word.slice x 8 (k - i * s.laneBytes) else v.byte k := by
  have hcovers : k / s.laneBytes = i ↔ i * s.laneBytes ≤ k ∧ k < (i + 1) * s.laneBytes := by
    have hpos := s.laneBytes_pos
    rw [Nat.div_eq_iff hpos, Nat.succ_mul]
    omega
  rw [← slice_lane_mod s w k, lane_of_replaceLane h _ (s.div_laneBytes_lt hk)]
  by_cases hi : k / s.laneBytes = i
  · rw [if_pos hi, if_pos (hcovers.1 hi), ← hi, ← Nat.mod_eq_sub_div_mul]
  · rw [if_neg hi, if_neg (mt hcovers.2 hi), slice_lane_mod]

end Vec

end Lanewise
