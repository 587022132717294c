import Lanewise.Proofs.Integer.Shift
import Lanewise.Proofs.Vec.Bits

/-!
# Narrow lanes by way of wide ones

A sum of wide lanes computes the sums of the narrow lanes inside, if no carry passes from one
narrow lane to the next. `addWith` adds with one carry into every lane, so that differences are
sums too. `Stops` says of an operand that the last bit of every narrow lane is this carry, whatever
came in : the carries of both shapes are then the same at every position (`carryInto_wider`), and
only the last bits of the sums have to be put right (`addWith_wider`).

A shift of wide lanes moves bits across narrow lanes, but only to places that a mask clears
(`shift_left_wider`, `shift_right_wider`). `wider_simulates` collects the four operations.
-/

namespace Lanewise

namespace IntShape

variable {s t : IntShape} {carry : Bool} {a a' b b' : Vec} {pos : ℕ}

/-- A narrower lane width divides a wider one. -/
theorem laneBits_dvd (h : s.laneBits < t.laneBits) : s.laneBits ∣ t.laneBits := by
  revert h
  cases s <;> cases t <;> decide

/-- The position after one that is not the last in its lane is in this lane too. -/
theorem succ_div_mod {n w : ℕ} (h : (n + 1) % w ≠ 0) :
    (n + 1) / w = n / w ∧ (n + 1) % w = n % w + 1 := by
  have hdiv : (n + 1) / w = n / w :=
    Nat.succ_div_of_not_dvd (mt Nat.mod_eq_zero_of_dvd h)
  have hnext := Nat.div_add_mod (n + 1) w
  have hthis := Nat.div_add_mod n w
  rw [hdiv] at hnext
  exact ⟨hdiv, by omega⟩

/-! ## Sums with a carry -/

/-- Lane sums with one carry into every lane. -/
def addWith (s : IntShape) (carry : Bool) (a b : Vec) : Vec :=
  Vec.zipWith s (fun x y => x + y + BitVec.setWidth _ (BitVec.ofBool carry)) a b

theorem binary_add (s : IntShape) (a b : Vec) : s.binary .add a b = s.addWith false a b := by
  have hlane : @IntBinary.lane s.laneBits .add =
      fun x y => x + y + BitVec.setWidth _ (BitVec.ofBool false) := by
    funext x y
    simp [IntBinary.lane]
  rw [binary, addWith, hlane]

/-- A difference is a sum with the complement and a carry. -/
theorem binary_sub (s : IntShape) (a b : Vec) : s.binary .sub a b = s.addWith true a (~~~b) := by
  refine Vec.ext_lane s fun k hk => ?_
  rw [binary, addWith, Vec.lane_zipWith _ _ _ _ _ hk, Vec.lane_zipWith _ _ _ _ _ hk,
    Vec.lane_not _ _ hk, IntBinary.lane, BitVec.sub_eq_add_neg, BitVec.neg_eq_not_add,
    ← BitVec.add_assoc]
  have hone : BitVec.setWidth (Shape.laneBits s) (BitVec.ofBool true) = 1#_ := by
    cases s <;> rfl
  rw [hone]

/-- The carry into the bit at a position. -/
def carryInto (s : IntShape) (carry : Bool) (a b : Vec) (pos : ℕ) : Bool :=
  BitVec.carry (pos % s.laneBits) (a.lane s (pos / s.laneBits)) (b.lane s (pos / s.laneBits)) carry

theorem getLsbD_addWith (h : pos < 128) : (s.addWith carry a b).bits.getLsbD pos =
    (a.bits.getLsbD pos ^^ (b.bits.getLsbD pos ^^ s.carryInto carry a b pos)) := by
  rw [addWith, Vec.getLsbD_zipWith a _ b h,
    BitVec.getLsbD_add_add_bool (Nat.mod_lt _ (Shape.laneBits_pos s)), Vec.getLsbD_lane_mod,
    Vec.getLsbD_lane_mod, carryInto]

/-- Every lane starts with the same carry. -/
theorem carryInto_first (h : pos % s.laneBits = 0) : s.carryInto carry a b pos = carry := by
  rw [carryInto, h, BitVec.carry_zero]

/-- Inside a lane, a carry is made of the bits before it. -/
theorem carryInto_succ (h : (pos + 1) % s.laneBits ≠ 0) : s.carryInto carry a b (pos + 1) =
    Bool.atLeastTwo (a.bits.getLsbD pos) (b.bits.getLsbD pos) (s.carryInto carry a b pos) := by
  obtain ⟨hdiv, hmod⟩ := succ_div_mod h
  rw [carryInto, hdiv, hmod, BitVec.carry_succ, Vec.getLsbD_lane_mod, Vec.getLsbD_lane_mod,
    carryInto]

/-! ## Stopping the carries -/

/-- The vector `a'` is `a` with the last bit of every lane put to the carry. -/
structure Stops (s : IntShape) (carry : Bool) (a a' : Vec) : Prop where
  below : ∀ pos < 128, (pos + 1) % s.laneBits ≠ 0 → a'.bits.getLsbD pos = a.bits.getLsbD pos
  last : ∀ pos < 128, (pos + 1) % s.laneBits = 0 → a'.bits.getLsbD pos = carry

/-- If the carries stop, they are the same in the wider lanes. -/
theorem carryInto_wider (h : s.laneBits < t.laneBits) (ha : s.Stops carry a a')
    (hb : s.Stops carry b b') (hpos : pos < 128) :
    t.carryInto carry a' b' pos = s.carryInto carry a b pos := by
  -- Over the positions of the whole vector, since a wide lane goes on where a narrow one ends.
  induction pos with
  | zero => rw [carryInto_first (Nat.zero_mod _), carryInto_first (Nat.zero_mod _)]
  | succ pos ih =>
    have hlt : pos < 128 := by omega
    by_cases hnarrow : (pos + 1) % s.laneBits = 0
    · rw [carryInto_first hnarrow]
      by_cases hwide : (pos + 1) % t.laneBits = 0
      · exact carryInto_first hwide
      · -- Both last bits are the carry, so the carry that comes in does not matter.
        rw [carryInto_succ hwide, ha.last pos hlt hnarrow, hb.last pos hlt hnarrow]
        cases carry <;> simp [Bool.atLeastTwo]
    · have hwide : (pos + 1) % t.laneBits ≠ 0 := by
        rw [← Nat.mod_mod_of_dvd _ (laneBits_dvd h)] at hnarrow
        exact fun hzero => hnarrow (by rw [hzero, Nat.zero_mod])
      rw [carryInto_succ hnarrow, carryInto_succ hwide, ha.below pos hlt hnarrow,
        hb.below pos hlt hnarrow, ih hlt]

/-- The greatest signed number in every lane : all bits but the last one of each lane. -/
def belowLast (s : IntShape) : Vec :=
  Vec.splat s (BitVec.intMax s.laneBits)

theorem getLsbD_belowLast (h : pos < 128) :
    s.belowLast.bits.getLsbD pos = decide ((pos + 1) % s.laneBits ≠ 0) := by
  rw [belowLast, Vec.getLsbD_splat _ h, BitVec.getLsbD_intMax, decide_eq_decide]
  change pos % s.laneBits + 1 < s.laneBits ↔ _
  constructor
  · intro hlt hlast
    rw [← Nat.mod_add_mod, Nat.mod_eq_of_lt hlt] at hlast
    omega
  · intro hne
    have hmod := (succ_div_mod hne).2
    have hlt : (pos + 1) % s.laneBits < s.laneBits := Nat.mod_lt _ (Shape.laneBits_pos s)
    omega

/-- A sum of narrow lanes is a sum of wide lanes in which the carries stop, with the last bits of
the narrow lanes put right. -/
theorem addWith_wider (h : s.laneBits < t.laneBits) (ha : s.Stops carry a a')
    (hb : s.Stops carry b b') :
    s.addWith carry a b = t.addWith carry a' b' ^^^ ((a ^^^ b) &&& ~~~s.belowLast) := by
  refine Vec.ext_bits fun pos hpos => ?_
  rw [Vec.getLsbD_xor, Vec.getLsbD_and, Vec.getLsbD_xor, Vec.getLsbD_not _ hpos,
    getLsbD_belowLast hpos, getLsbD_addWith hpos, getLsbD_addWith hpos,
    carryInto_wider h ha hb hpos]
  by_cases hlast : (pos + 1) % s.laneBits = 0
  · rw [ha.last pos hpos hlast, hb.last pos hpos hlast]
    simp [hlast, Bool.xor_comm, Bool.xor_left_comm]
  · rw [ha.below pos hpos hlast, hb.below pos hpos hlast]
    simp [hlast]

theorem stops_and (s : IntShape) (a : Vec) : s.Stops false a (a &&& s.belowLast) where
  below pos hpos h := by simp [Vec.getLsbD_and, getLsbD_belowLast hpos, h]
  last pos hpos h := by simp [Vec.getLsbD_and, getLsbD_belowLast hpos, h]

theorem stops_or (s : IntShape) (a : Vec) : s.Stops true a (a ||| ~~~s.belowLast) where
  below pos hpos h := by simp [Vec.getLsbD_or, Vec.getLsbD_not _ hpos, getLsbD_belowLast hpos, h]
  last pos hpos h := by simp [Vec.getLsbD_or, Vec.getLsbD_not _ hpos, getLsbD_belowLast hpos, h]

theorem Stops.not {carry : Bool} (h : s.Stops carry a a') : s.Stops (!carry) (~~~a) (~~~a') where
  below pos hpos hbelow := by
    rw [Vec.getLsbD_not _ hpos, Vec.getLsbD_not _ hpos, h.below pos hpos hbelow]
  last pos hpos hlast := by
    rw [Vec.getLsbD_not _ hpos, h.last pos hpos hlast]

/-! ## Shifts -/

/-- A shift count within a lane. -/
def reducedCount (s : IntShape) (count : BitVec 32) : BitVec 32 :=
  BitVec.ofNat 32 (count.toNat % s.laneBits)

/-- The reduced count is not reduced any further. -/
theorem toNat_reducedCount_mod (h : s.laneBits ≤ t.laneBits) (count : BitVec 32) :
    (s.reducedCount count).toNat % t.laneBits = count.toNat % s.laneBits := by
  have hlt : count.toNat % s.laneBits < s.laneBits := Nat.mod_lt _ (Shape.laneBits_pos s)
  exact Shift.toNat_ofNat_mod t.laneBits_dvd_two_pow (hlt.trans_le h)

theorem getLsbD_shift_left (s : IntShape) (v : Vec) (count : BitVec 32) (h : pos < 128) :
    (s.shift .left v count).bits.getLsbD pos =
      (!decide (pos % s.laneBits < count.toNat % s.laneBits) &&
        v.bits.getLsbD (pos - count.toNat % s.laneBits)) := by
  have hlt : pos % s.laneBits < s.laneBits := Nat.mod_lt _ (Shape.laneBits_pos s)
  have hpos := Nat.div_add_mod' pos s.laneBits
  rw [shift, Vec.getLsbD_map _ _ h, Shift.lane, Lane.shl, BitVec.getLsbD_shiftLeft,
    decide_eq_true hlt, Bool.true_and]
  by_cases hout : pos % s.laneBits < count.toNat % s.laneBits
  · rw [decide_eq_true hout]
    rfl
  · rw [Vec.getLsbD_lane_of_lt _ _ _ (Nat.lt_of_le_of_lt (Nat.sub_le _ _) hlt),
      ← Nat.add_sub_assoc (Nat.not_lt.1 hout), hpos]

theorem getLsbD_shift_right (s : IntShape) (v : Vec) (count : BitVec 32) (h : pos < 128) :
    (s.shift (.right .unsigned) v count).bits.getLsbD pos =
      (decide (count.toNat % s.laneBits + pos % s.laneBits < s.laneBits) &&
        v.bits.getLsbD (count.toNat % s.laneBits + pos)) := by
  have hpos := Nat.div_add_mod' pos s.laneBits
  rw [shift, Vec.getLsbD_map _ _ h, Shift.lane, Lane.shr, BitVec.getLsbD_ushiftRight,
    Vec.getLsbD_lane, Nat.add_left_comm, hpos]

/-- A position is at least as far into a wide lane as into the narrow one. -/
theorem mod_le_mod (h : s.laneBits < t.laneBits) (pos : ℕ) :
    pos % s.laneBits ≤ pos % t.laneBits := by
  rw [← Nat.mod_mod_of_dvd pos (laneBits_dvd h)]
  exact Nat.mod_le _ _

/-- A position is at least as far from the end of a wide lane as from that of the narrow one. -/
theorem add_mod_lt (h : s.laneBits < t.laneBits) {n : ℕ} (hn : n + pos % s.laneBits < s.laneBits) :
    n + pos % t.laneBits < t.laneBits := by
  obtain ⟨m, hm⟩ := laneBits_dvd h
  have hquot : pos % t.laneBits / s.laneBits < m := by
    refine Nat.div_lt_of_lt_mul ?_
    rw [← hm]
    exact Nat.mod_lt _ (Shape.laneBits_pos t)
  have hle : s.laneBits * (pos % t.laneBits / s.laneBits + 1) ≤ s.laneBits * m :=
    Nat.mul_le_mul_left _ hquot
  have hpos := Nat.div_add_mod (pos % t.laneBits) s.laneBits
  rw [Nat.mod_mod_of_dvd pos (laneBits_dvd h)] at hpos
  rw [Nat.mul_add, ← hm] at hle
  omega

/-- What a left shift of wide lanes moves into a narrow lane from the one below is cleared. -/
theorem shift_left_wider (h : s.laneBits < t.laneBits) (v : Vec) (count : BitVec 32) :
    s.shift .left v count = t.shift .left v (s.reducedCount count) &&&
      Vec.splat s (BitVec.allOnes s.laneBits <<< (count.toNat % s.laneBits)) := by
  have hcount := toNat_reducedCount_mod (Nat.le_of_lt h) count
  refine Vec.ext_bits fun pos hpos => ?_
  rw [Vec.getLsbD_and, getLsbD_shift_left s _ _ hpos, getLsbD_shift_left t _ _ hpos,
    Vec.getLsbD_splat _ hpos, hcount]
  have hle := mod_le_mod h pos
  have hlt : pos % s.laneBits < s.laneBits := Nat.mod_lt _ (Shape.laneBits_pos s)
  generalize count.toNat % s.laneBits = n
  by_cases hout : pos % s.laneBits < n
  · simp [hout]
  · have hout' : ¬pos % t.laneBits < n := by omega
    simp [hout, hout', hlt]

/-- What a right shift of wide lanes moves into a narrow lane from the one above is cleared. -/
theorem shift_right_wider (h : s.laneBits < t.laneBits) (v : Vec) (count : BitVec 32) :
    s.shift (.right .unsigned) v count = t.shift (.right .unsigned) v (s.reducedCount count) &&&
      Vec.splat s (BitVec.allOnes s.laneBits >>> (count.toNat % s.laneBits)) := by
  have hcount := toNat_reducedCount_mod (Nat.le_of_lt h) count
  refine Vec.ext_bits fun pos hpos => ?_
  rw [Vec.getLsbD_and, getLsbD_shift_right s _ _ hpos, getLsbD_shift_right t _ _ hpos,
    Vec.getLsbD_splat _ hpos, hcount, BitVec.getLsbD_ushiftRight, BitVec.getLsbD_allOnes]
  generalize count.toNat % s.laneBits = n
  by_cases hin : n + pos % s.laneBits < s.laneBits
  · rw [decide_eq_true hin, decide_eq_true (add_mod_lt h hin), Bool.and_true]
  · rw [decide_eq_false hin, Bool.and_false, Bool.false_and]

/-! ## All four -/

/-- Sums, differences and logical shifts of narrow lanes are those of wide lanes, with masks
before or after. -/
theorem wider_simulates (s t : IntShape) (h : s.laneBits < t.laneBits) (a b v : Vec)
    (count : BitVec 32) :
    s.binary .add a b =
      t.binary .add (a &&& s.belowLast) (b &&& s.belowLast) ^^^
        ((a ^^^ b) &&& ~~~s.belowLast) ∧
    s.binary .sub a b =
      t.binary .sub (a ||| ~~~s.belowLast) (b &&& s.belowLast) ^^^
        ((a ^^^ ~~~b) &&& ~~~s.belowLast) ∧
    s.shift .left v count = t.shift .left v (s.reducedCount count) &&&
      Vec.splat s (BitVec.allOnes s.laneBits <<< (count.toNat % s.laneBits)) ∧
    s.shift (.right .unsigned) v count = t.shift (.right .unsigned) v (s.reducedCount count) &&&
      Vec.splat s (BitVec.allOnes s.laneBits >>> (count.toNat % s.laneBits)) := by
  refine ⟨?_, ?_, shift_left_wider h v count, shift_right_wider h v count⟩
  · rw [binary_add, binary_add, addWith_wider h (s.stops_and a) (s.stops_and b)]
  · rw [binary_sub, binary_sub, addWith_wider h (s.stops_or a) (s.stops_and b).not]

/-- A borrow in every byte stays in it when the bytes are subtracted as two halves. -/
theorem wider_simulates_borrow :
    laneBits .i8x16 < laneBits .i64x2 ∧
      i8x16.binary .sub Vec.zero (Vec.filled 1) = Vec.filled 0xFF := by
  have hlt : laneBits .i8x16 < laneBits .i64x2 := by decide
  have h := (wider_simulates i8x16 i64x2 hlt Vec.zero (Vec.filled 1) Vec.zero 0).2.1
  refine ⟨hlt, h.trans ?_⟩
  decide +kernel

end IntShape

end Lanewise
