import Lanewise.Bytes
import Lanewise.Shape

/-!
# Vectors

A `Vec` is sixteen bytes. It is looked at as one number of 128 bits, as the lanes of a shape and
as two halves. Each view decodes the bytes, the least significant byte first, and each has an
inverse that encodes them again.

* `Vec.bits` and `Vec.ofBits` are the view as one number, which tells a vector (`Vec.ext`).
* `Vec.lanes` and `Vec.ofLanes` are the view of a shape, decoded chunk by chunk, and its inverse
  (`ofLanes_lanes`, `lanes_ofLanes`). Lane `k` of a shape of lane width `w` is the `k`-th word of
  width `w` of the one number (`lane_eq_slice`).
* `Vec.map` and `Vec.zipWith` apply a function of lanes to every lane.
* `Vec.extractLane` and `Vec.replaceLane` refuse an index that names no lane with a `Fault`.
-/

namespace Lanewise

/-- A vector of sixteen bytes. -/
structure Vec where
  bytes : Vector (BitVec 8) 16
  deriving DecidableEq

namespace Vec

/-- The vector whose bytes are all the same. -/
def filled (fill : BitVec 8) : Vec :=
  ⟨Vector.replicate 16 fill⟩

def zero : Vec :=
  filled 0#8

instance : Inhabited Vec :=
  ⟨zero⟩

/-! ## Bytes -/

def toBytes (v : Vec) : List (BitVec 8) :=
  v.bytes.toList

/-- The first sixteen bytes of a list. Bytes past its end are zero. -/
def ofByteList (bytes : List (BitVec 8)) : Vec :=
  ⟨Vector.ofFn fun k => bytes.getD k 0#8⟩

def ofBytes (bytes : List (BitVec 8)) : Except Cause Vec :=
  if bytes.length = 16 then .ok (ofByteList bytes) else .error (.byteCount "v128" 16)

theorem length_toBytes (v : Vec) : v.toBytes.length = 16 :=
  Vector.length_toList

theorem toBytes_ofByteList {bytes : List (BitVec 8)} (h : bytes.length = 16) :
    (ofByteList bytes).toBytes = bytes := by
  refine List.ext_getElem (by rw [length_toBytes, h]) fun k _ hk => ?_
  simp [toBytes, ofByteList, hk]

theorem ofByteList_toBytes (v : Vec) : ofByteList v.toBytes = v := by
  refine congrArg mk (Vector.ext fun k hk => ?_)
  simp [toBytes]

/-! ## One number -/

/-- The 128 bits as one number. -/
def bits (v : Vec) : BitVec 128 :=
  Bytes.toBits 128 v.toBytes

def ofBits (x : BitVec 128) : Vec :=
  ofByteList (Bytes.ofBits x 16)

theorem toNat_bits (v : Vec) : v.bits.toNat = Word.pack v.toBytes := by
  have hlt := Word.pack_lt v.toBytes
  rw [length_toBytes] at hlt
  rw [bits, Bytes.toBits, BitVec.toNat_ofNat, Nat.mod_eq_of_lt hlt]

theorem bits_ofByteList {bytes : List (BitVec 8)} (h : bytes.length = 16) :
    (ofByteList bytes).bits = BitVec.ofNat 128 (Word.pack bytes) := by
  rw [bits, toBytes_ofByteList h, Bytes.toBits]

theorem bits_ofBits (x : BitVec 128) : (ofBits x).bits = x := by
  have hwidth : 16 * 8 = 128 := rfl
  rw [bits, ofBits, toBytes_ofByteList (Bytes.length_ofBits ..), Bytes.toBits_ofBits hwidth]

theorem ofBits_bits (v : Vec) : ofBits v.bits = v := by
  have hslices := Word.slices_ofNat_pack (n := 128) v.toBytes (by rw [length_toBytes])
  rw [length_toBytes] at hslices
  rw [ofBits, bits, Bytes.toBits, Bytes.ofBits, hslices, ofByteList_toBytes]

/-- Vectors that are the same number are equal. -/
theorem ext {v w : Vec} (h : v.bits = w.bits) : v = w := by
  rw [← ofBits_bits v, ← ofBits_bits w, h]

/-! ## Lanes -/

/-- All lanes of a shape, lane 0 first. -/
def lanes (v : Vec) (s : Shape) : Vector (BitVec s.laneBits) s.lanes :=
  ⟨(Bytes.toWords s.laneBits s.laneBytes s.lanes v.toBytes).toArray, Bytes.length_toWords ..⟩

/-- The bits of lane `k`. -/
def lane (v : Vec) (s : Shape) (k : Nat) : BitVec s.laneBits :=
  (v.lanes s).toList.getD k 0#_

/-- The vector that words of `size` bytes make up, the first word least significant. -/
def ofWords {w : Nat} (size : Nat) (x : List (BitVec w)) : Vec :=
  ofByteList (Bytes.ofWords size x)

/-- The vector with the given lanes. -/
def ofLanes (s : Shape) (x : Vector (BitVec s.laneBits) s.lanes) : Vec :=
  ofWords s.laneBytes x.toList

theorem getElem_lanes (v : Vec) (s : Shape) (k : Nat) (h : k < s.lanes) :
    (v.lanes s)[k] = v.lane s k := by
  simp [lane, h]

/-- The bytes of all lanes are the bytes of the vector. -/
theorem pack_toList_lanes (v : Vec) (s : Shape) : Word.pack (v.lanes s).toList = v.bits.toNat := by
  rw [toNat_bits]
  exact Bytes.pack_toWords s.laneBytes_mul_eight s.lanes v.toBytes
    (by rw [length_toBytes, s.lanes_mul_laneBytes])

theorem toNat_lane (v : Vec) (s : Shape) (k : Nat) :
    (v.lane s k).toNat = v.bits.toNat / 2 ^ (k * s.laneBits) % 2 ^ s.laneBits := by
  rw [lane, Word.toNat_getD, pack_toList_lanes]

/-- A lane is a slice of the one number. -/
theorem lane_eq_slice (v : Vec) (s : Shape) (k : Nat) :
    v.lane s k = Word.slice v.bits s.laneBits k :=
  BitVec.eq_of_toNat_eq (by rw [toNat_lane, Word.toNat_slice])

theorem getElem?_toList_lanes {v : Vec} {s : Shape} {k : Nat} {x : BitVec s.laneBits} :
    (v.lanes s).toList[k]? = some x ↔ k < s.lanes ∧ v.lane s k = x := by
  rw [List.getElem?_eq_some_iff]
  constructor
  · rintro ⟨hk, rfl⟩
    rw [Vector.length_toList] at hk
    exact ⟨hk, by rw [Vector.getElem_toList, getElem_lanes v s k hk]⟩
  · rintro ⟨hk, rfl⟩
    exact ⟨by rwa [Vector.length_toList], by rw [Vector.getElem_toList, getElem_lanes v s k hk]⟩

theorem toList_lanes (v : Vec) (s : Shape) :
    (v.lanes s).toList = (List.range s.lanes).map (v.lane s) := by
  refine List.ext_getElem (by simp) fun k hk _ => ?_
  rw [Vector.length_toList] at hk
  simp [getElem_lanes v s k hk]

theorem bits_ofLanes (s : Shape) (x : Vector (BitVec s.laneBits) s.lanes) :
    (ofLanes s x).bits = BitVec.ofNat 128 (Word.pack x.toList) := by
  have hlen : (Bytes.ofWords s.laneBytes x.toList).length = 16 := by
    rw [Bytes.length_ofWords, Vector.length_toList, s.lanes_mul_laneBytes]
  rw [ofLanes, ofWords, bits_ofByteList hlen, Bytes.pack_ofWords s.laneBytes_mul_eight]

/-- The lanes of a shape, packed, fit a vector. -/
theorem pack_lanes_lt (s : Shape) (x : Vector (BitVec s.laneBits) s.lanes) :
    Word.pack x.toList < 2 ^ (128 : Nat) := by
  have h := Word.pack_lt x.toList
  rwa [Vector.length_toList, s.lanes_mul_laneBits] at h

theorem lane_ofLanes (s : Shape) (x : Vector (BitVec s.laneBits) s.lanes) (k : Nat)
    (h : k < s.lanes) : (ofLanes s x).lane s k = x[k] := by
  apply BitVec.eq_of_toNat_eq
  rw [toNat_lane, bits_ofLanes, BitVec.toNat_ofNat, Nat.mod_eq_of_lt (pack_lanes_lt s x),
    Word.pack_div_mod x.toList k (by simpa using h), Vector.getElem_toList]

theorem lanes_ofLanes (s : Shape) (x : Vector (BitVec s.laneBits) s.lanes) :
    (ofLanes s x).lanes s = x := by
  ext k h
  rw [getElem_lanes _ _ _ h, lane_ofLanes _ _ _ h]

theorem ofLanes_lanes (v : Vec) (s : Shape) : ofLanes s (v.lanes s) = v := by
  apply ext
  rw [bits_ofLanes, pack_toList_lanes, BitVec.ofNat_toNat, BitVec.setWidth_eq]

/-- Vectors with the same lanes in some shape are equal. -/
theorem ext_lane {v w : Vec} (s : Shape) (h : ∀ k < s.lanes, v.lane s k = w.lane s k) : v = w := by
  rw [← ofLanes_lanes v s, ← ofLanes_lanes w s]
  congr 1
  ext k hk
  rw [getElem_lanes _ _ _ hk, getElem_lanes _ _ _ hk, h k hk]

/-! ## Every lane at once -/

def splat (s : Shape) (x : BitVec s.laneBits) : Vec :=
  ofLanes s (Vector.replicate s.lanes x)

def map (s : Shape) (f : BitVec s.laneBits → BitVec s.laneBits) (v : Vec) : Vec :=
  ofLanes s ((v.lanes s).map f)

def zipWith (s : Shape) (f : BitVec s.laneBits → BitVec s.laneBits → BitVec s.laneBits)
    (v w : Vec) : Vec :=
  ofLanes s (Vector.zipWith f (v.lanes s) (w.lanes s))

theorem lane_splat (s : Shape) (x : BitVec s.laneBits) (k : Nat) (h : k < s.lanes) :
    (splat s x).lane s k = x := by
  simp [splat, lane_ofLanes s _ k h]

theorem lane_map (s : Shape) (f : BitVec s.laneBits → BitVec s.laneBits) (v : Vec) (k : Nat)
    (h : k < s.lanes) : (map s f v).lane s k = f (v.lane s k) := by
  simp [map, lane_ofLanes s _ k h, getElem_lanes v s k h]

theorem lane_zipWith (s : Shape) (f : BitVec s.laneBits → BitVec s.laneBits → BitVec s.laneBits)
    (v w : Vec) (k : Nat) (h : k < s.lanes) :
    (zipWith s f v w).lane s k = f (v.lane s k) (w.lane s k) := by
  simp [zipWith, lane_ofLanes s _ k h, getElem_lanes v s k h, getElem_lanes w s k h]

theorem lane_filled (x : BitVec 8) (k : Nat) (h : k < 16) :
    (filled x).lane IntShape.i8x16 k = x := by
  apply BitVec.eq_of_toNat_eq
  rw [toNat_lane, toNat_bits, Word.pack_div_mod _ k (by rwa [length_toBytes])]
  simp only [toBytes, filled, Vector.toList_replicate, List.getElem_replicate]

/-- The lane of a decision : all ones for yes, all zeros for no. -/
def mask {w : Nat} (b : Bool) : BitVec w :=
  if b then BitVec.allOnes w else 0#w

/-! ## One lane -/

/-- The bits of a lane that must exist. -/
def extractLane (s : Shape) (k : Nat) (v : Vec) : Except Fault (BitVec s.laneBits) :=
  if k < s.lanes then .ok (v.lane s k) else .error (.lane k s.lanes)

/-- The vector with new bits in a lane that must exist. -/
def replaceLane (s : Shape) (k : Nat) (x : BitVec s.laneBits) (v : Vec) : Except Fault Vec :=
  if h : k < s.lanes then .ok (ofLanes s ((v.lanes s).set k x h)) else .error (.lane k s.lanes)

theorem extractLane_eq_ok (s : Shape) (k : Nat) (v : Vec) (h : k < s.lanes) :
    extractLane s k v = .ok (v.lane s k) :=
  if_pos h

/-- The written lane changes and every other lane of the shape stays. -/
theorem lane_of_replaceLane {s : Shape} {k : Nat} {x : BitVec s.laneBits} {v w : Vec}
    (hw : replaceLane s k x v = .ok w) (j : Nat) (hj : j < s.lanes) :
    w.lane s j = if j = k then x else v.lane s j := by
  unfold replaceLane at hw
  split at hw
  · cases hw
    rw [lane_ofLanes _ _ _ hj, Vector.getElem_set, getElem_lanes _ _ _ hj]
    simp only [eq_comm]
  · cases hw

/-! ## Halves -/

def ofPair (low high : BitVec 64) : Vec :=
  ofBits (high.setWidth 128 <<< (64 : Nat) ||| low.setWidth 128)

/-- The low and the high half. -/
def toPair (v : Vec) : BitVec 64 × BitVec 64 :=
  (v.bits.setWidth 64, (v.bits >>> (64 : Nat)).setWidth 64)

theorem getLsbD_ofPair (low high : BitVec 64) {pos : Nat} (hpos : pos < 128) :
    (ofPair low high).bits.getLsbD pos =
      if pos < 64 then low.getLsbD pos else high.getLsbD (pos - 64) := by
  rw [ofPair, bits_ofBits]
  by_cases h : pos < 64
  · simp [h, hpos]
  · have hlow : low.getLsbD pos = false := BitVec.getLsbD_of_ge low pos (Nat.le_of_not_lt h)
    simp [h, hpos, hlow]

end Vec

end Lanewise
