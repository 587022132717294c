import Lanewise.Proofs.Instr.Validation
import Lanewise.Proofs.Vec.Logic

/-!
# The algebra of byte permutations

A swizzle reads byte `k` of its result at the index that byte `k` of a vector holds, a shuffle at
the index that entry `k` of a list holds. A vector has zeros past its last lane (`lane_of_le`), so
a swizzle needs no case for an index that names no byte (`lane_swizzle`), while a shuffle refuses
it (`shuffle_eq_error_iff`).

`permutations_compose` collects what follows. A shuffle is the union of two swizzles : reduced by
16, an index of the first vector wraps around and names no byte of the second. Shuffles of shuffles
are shuffles, and swizzles of swizzles are swizzles once the indices that name no byte are filled
with ones, so that they keep naming none.
-/

namespace Lanewise

namespace Vec

variable {a b v : Vec} {indices : Vector UInt8 16} {k : ℕ}

/-! ## Swizzles -/

/-- There are zeros past the last lane. -/
theorem lane_of_le (s : Shape) (v : Vec) (h : s.lanes ≤ k) : v.lane s k = 0#_ := by
  have hpast : 128 ≤ k * s.laneBits := by
    rw [← s.lanes_mul_laneBits]
    exact Nat.mul_le_mul_right _ h
  refine BitVec.eq_of_getLsbD_eq fun i hi => ?_
  rw [getLsbD_lane_of_lt s v k hi, BitVec.getLsbD_of_ge _ _ (by omega), BitVec.getLsbD_zero]

theorem lane_swizzle (v s : Vec) (h : k < 16) :
    (v.swizzle s).lane byteShape k = v.lane byteShape (s.lane byteShape k).toNat := by
  rw [swizzle, lane_map byteShape _ s k h]
  split_ifs with hlt
  · rfl
  · exact (lane_of_le byteShape v (not_lt.1 hlt)).symm

/-- Indices of a second swizzle that name no byte have to name none of the first vector either. -/
theorem swizzle_swizzle (a s t : Vec) :
    (a.swizzle s).swizzle t = a.swizzle (s.swizzle t |||
      IntShape.i8x16.binary (.compare (.ge .unsigned)) t (splat byteShape 16#8)) := by
  refine ext_lane byteShape fun k hk => ?_
  have hmask : (IntShape.i8x16.binary (.compare (.ge .unsigned)) t
      (splat byteShape 16#8)).lane byteShape k =
        mask ((16#8).ule (t.lane byteShape k)) := by
    rw [IntShape.i8x16.lane_binary _ _ _ k hk, lane_splat byteShape _ k hk]
    rfl
  rw [lane_swizzle _ _ hk, lane_swizzle _ _ hk, lane_or, lane_swizzle _ _ hk, hmask]
  generalize t.lane byteShape k = i
  by_cases hi : i.toNat < 16
  · have hule : (16#8).ule i = false := by simpa [BitVec.ule] using hi
    rw [lane_swizzle _ _ hi, hule, mask, if_neg Bool.false_ne_true, BitVec.or_zero]
  · have hule : (16#8).ule i = true := by simpa [BitVec.ule] using hi
    rw [lane_of_le byteShape (a.swizzle s) (not_lt.1 hi), hule, mask, if_pos rfl,
      BitVec.or_allOnes]
    exact (lane_of_le byteShape a (by decide)).symm

/-! ## Shuffles -/

/-- Every index names a byte of two vectors. -/
def InRange (indices : Vector UInt8 16) : Prop :=
  ∀ i ∈ indices, i.toNat < 32

theorem InRange.getElem_lt (h : InRange indices) (hk : k < 16) : indices[k].toNat < 32 :=
  h _ (Vector.getElem_mem hk)

theorem badIndex?_eq_none_iff : badIndex? indices = none ↔ InRange indices := by
  simp [badIndex?, InRange]

instance (indices : Vector UInt8 16) : Decidable (InRange indices) :=
  decidable_of_iff (badIndex? indices = none) badIndex?_eq_none_iff

/-- The index that is found is out of range, and those before it are not. -/
theorem badIndex?_eq_some_iff {i : UInt8} : badIndex? indices = some i ↔
    ∃ k, ∃ hk : k < 16, indices[k] = i ∧ 32 ≤ i.toNat ∧
      ∀ j, ∀ hj : j < k, indices[j].toNat < 32 := by
  simp only [badIndex?, List.find?_eq_some_iff_getElem, decide_eq_true_eq, Vector.length_toList,
    Vector.getElem_toList, Bool.not_eq_true', decide_eq_false_iff_not, not_le]
  constructor
  · rintro ⟨hi, k, hk, hki, hbefore⟩
    exact ⟨k, hk, hki, hi, hbefore⟩
  · rintro ⟨k, hk, hki, hi, hbefore⟩
    exact ⟨hi, k, hk, hki, hbefore⟩

theorem shuffle_of_inRange (h : InRange indices) (a b : Vec) : shuffle indices a b =
    .ok (ofLanes byteShape (indices.map fun i => byteOfTwo a b i.toNat)) := by
  rw [shuffle, badIndex?_eq_none_iff.2 h]

/-- A shuffle with indices in range is told by its bytes. -/
theorem shuffle_eq_ok_iff : shuffle indices a b = .ok v ↔
    InRange indices ∧
      ∀ k, ∀ hk : k < 16, v.lane byteShape k = byteOfTwo a b indices[k].toNat := by
  constructor
  · intro h
    have hrange : InRange indices := by
      rw [← badIndex?_eq_none_iff]
      unfold shuffle at h
      split at h
      · cases h
      · assumption
    rw [shuffle_of_inRange hrange] at h
    obtain rfl := Except.ok.inj h
    refine ⟨hrange, fun k hk => ?_⟩
    rw [lane_ofLanes byteShape _ k hk, Vector.getElem_map]
  · rintro ⟨hrange, hv⟩
    rw [shuffle_of_inRange hrange]
    refine congrArg _ (ext_lane byteShape fun k hk => ?_)
    rw [lane_ofLanes byteShape _ k hk, Vector.getElem_map, hv k hk]

theorem exists_shuffle (h : InRange indices) (a b : Vec) : ∃ v, shuffle indices a b = .ok v :=
  ⟨_, shuffle_of_inRange h a b⟩

/-- A shuffle faults at the first index out of range. -/
theorem shuffle_eq_error_iff {fault : Fault} : shuffle indices a b = .error fault ↔
    ∃ k, ∃ hk : k < 16, 32 ≤ indices[k].toNat ∧
      (∀ j, ∀ hj : j < k, indices[j].toNat < 32) ∧ fault = .shuffle indices[k].toNat := by
  constructor
  · intro h
    cases hbad : badIndex? indices with
    | none =>
      rw [shuffle, hbad] at h
      cases h
    | some i =>
      rw [shuffle, hbad] at h
      obtain ⟨k, hk, rfl, hi, hbefore⟩ := badIndex?_eq_some_iff.1 hbad
      exact ⟨k, hk, hi, hbefore, (Except.error.inj h).symm⟩
  · rintro ⟨k, hk, hi, hbefore, rfl⟩
    rw [shuffle, badIndex?_eq_some_iff.2 ⟨k, hk, rfl, hi, hbefore⟩]

theorem exists_fault_iff :
    (∃ fault, shuffle indices a b = .error fault) ↔ ∃ i ∈ indices, 32 ≤ i.toNat := by
  have hrange : (∃ i ∈ indices, 32 ≤ i.toNat) ↔ ¬InRange indices := by simp [InRange]
  rw [hrange]
  constructor
  · rintro ⟨fault, hfault⟩ h
    obtain ⟨v, hv⟩ := exists_shuffle h a b
    rw [hv] at hfault
    cases hfault
  · intro h
    obtain ⟨i, hi⟩ := Option.ne_none_iff_exists'.1 (mt badIndex?_eq_none_iff.1 h)
    exact ⟨.shuffle i.toNat, by rw [shuffle, hi]⟩

/-! ## Unions of swizzles -/

/-- A list of indices as the bytes of a vector. -/
def ofIndices (indices : Vector UInt8 16) : Vec :=
  ofLanes byteShape (indices.map UInt8.toBitVec)

theorem lane_ofIndices (indices : Vector UInt8 16) (hk : k < 16) :
    (ofIndices indices).lane byteShape k = indices[k].toBitVec := by
  rw [ofIndices, lane_ofLanes byteShape _ k hk, Vector.getElem_map]

/-- One of the two bytes is past the last lane. -/
theorem byteOfTwo_eq_or (a b : Vec) {i : BitVec 8} (h : i.toNat < 32) :
    byteOfTwo a b i.toNat =
      a.lane byteShape i.toNat ||| b.lane byteShape (i - 16#8).toNat := by
  rw [byteOfTwo]
  split_ifs with hi
  · have hwrap : 16 ≤ (i - 16#8).toNat := by
      rw [BitVec.toNat_sub, BitVec.toNat_ofNat]
      omega
    rw [lane_of_le byteShape b hwrap, BitVec.or_zero]
  · have hsub : (i - 16#8).toNat = i.toNat - 16 := by
      rw [BitVec.toNat_sub, BitVec.toNat_ofNat]
      omega
    rw [lane_of_le byteShape a (not_lt.1 hi), BitVec.zero_or, hsub]

theorem shuffle_eq_or_swizzle (h : InRange indices) (a b : Vec) : shuffle indices a b =
    .ok (a.swizzle (ofIndices indices) ||| b.swizzle
      (IntShape.i8x16.binary .sub (ofIndices indices) (splat byteShape 16#8))) := by
  refine shuffle_eq_ok_iff.2 ⟨h, fun k hk => ?_⟩
  have hsub : (IntShape.i8x16.binary .sub (ofIndices indices)
      (splat byteShape 16#8)).lane byteShape k = indices[k].toBitVec - 16#8 := by
    rw [IntShape.i8x16.lane_binary _ _ _ k hk, lane_splat byteShape _ k hk,
      lane_ofIndices indices hk]
    rfl
  rw [lane_or, lane_swizzle _ _ hk, lane_swizzle _ _ hk, hsub, lane_ofIndices indices hk]
  exact (byteOfTwo_eq_or a b (h.getElem_lt hk)).symm

/-! ## Shuffles of shuffles -/

/-- Index `i` of two lists of indices in a row. -/
def indexOfTwo (first second : Vector UInt8 16) (i : ℕ) : UInt8 :=
  if h : i < 16 then first[i] else second[i - 16]?.getD 0

/-- The indices that pick from two vectors what `outer` picks from their shuffles by `first` and by
`second`. -/
def composeIndices (first second outer : Vector UInt8 16) : Vector UInt8 16 :=
  outer.map fun i => indexOfTwo first second i.toNat

variable {first second outer : Vector UInt8 16}

theorem getElem_composeIndices (hk : k < 16) :
    (composeIndices first second outer)[k] = indexOfTwo first second outer[k].toNat :=
  Vector.getElem_map ..

/-- A byte of two shuffles in a row is a byte of the vectors. -/
theorem byteOfTwo_shuffle {w : Vec} (hv : shuffle first a b = .ok v)
    (hw : shuffle second a b = .ok w) {i : ℕ} (hi : i < 32) :
    byteOfTwo v w i = byteOfTwo a b (indexOfTwo first second i).toNat ∧
      (indexOfTwo first second i).toNat < 32 := by
  obtain ⟨hfirst, hv⟩ := shuffle_eq_ok_iff.1 hv
  obtain ⟨hsecond, hw⟩ := shuffle_eq_ok_iff.1 hw
  by_cases hlow : i < 16
  · rw [byteOfTwo, if_pos hlow, indexOfTwo, dif_pos hlow]
    exact ⟨hv i hlow, hfirst.getElem_lt hlow⟩
  · have hhigh : i - 16 < 16 := by omega
    have hindex : indexOfTwo first second i = second[i - 16] := by
      rw [indexOfTwo, dif_neg hlow, Vector.getElem?_eq_getElem hhigh, Option.getD_some]
    rw [byteOfTwo, if_neg hlow, hindex]
    exact ⟨hw _ hhigh, hsecond.getElem_lt hhigh⟩

theorem shuffle_shuffle {w : Vec} (hv : shuffle first a b = .ok v)
    (hw : shuffle second a b = .ok w) (houter : InRange outer) :
    ∃ u, shuffle outer v w = .ok u ∧
      shuffle (composeIndices first second outer) a b = .ok u := by
  obtain ⟨u, hu⟩ := exists_shuffle houter v w
  refine ⟨u, hu, shuffle_eq_ok_iff.2 ⟨fun i hi => ?_, fun k hk => ?_⟩⟩
  · obtain ⟨k, hk, rfl⟩ := Vector.getElem_of_mem hi
    rw [getElem_composeIndices hk]
    exact (byteOfTwo_shuffle hv hw (houter.getElem_lt hk)).2
  · rw [(shuffle_eq_ok_iff.1 hu).2 k hk, getElem_composeIndices hk]
    exact (byteOfTwo_shuffle hv hw (houter.getElem_lt hk)).1

/-! ## Instructions -/

/-- With two operands of any types, an index out of range decides the error. -/
theorem execute_shuffle_rejected_iff {inputs : List Value} (h : inputs.length = 2) :
    (∃ reason, (Instr.shuffle indices).execute inputs = .error (.rejected reason) ∧
      reason.toError.code = Code.laneIndexOutOfRange) ↔ ∃ i ∈ indices, 32 ≤ i.toNat := by
  have hlen : inputs.length = (Instr.shuffle indices).operandCount := h
  have hvalid : (Instr.shuffle indices).ValidImmediates ↔ ¬∃ i ∈ indices, 32 ≤ i.toNat := by
    simp [Instr.ValidImmediates, Instr.laneImmediate?, Instr.shuffleIndices]
  constructor
  · rintro ⟨reason, hreason, hcode⟩
    by_contra hnone
    by_cases haccepts : (Instr.shuffle indices).Accepts inputs
    · obtain ⟨r, hr, -⟩ := Instr.execute_of_accepts _ inputs haccepts
      rw [hr] at hreason
      cases hreason
    · -- Immediates in range leave the types as the only reason.
      obtain ⟨_, hreason', herror⟩ := Instr.execute_of_not_accepts _ inputs haccepts
      rw [hreason] at hreason'
      cases hreason'
      rw [herror, Instr.firstError, if_neg (not_not.2 hlen), if_neg (not_not.2 (hvalid.2 hnone))]
        at hcode
      exact absurd hcode (by decide)
  · intro hbad
    have hinvalid : ¬(Instr.shuffle indices).ValidImmediates := fun hgood => hvalid.1 hgood hbad
    obtain ⟨reason, hcheck, herror⟩ := Instr.check_of_not_valid _ inputs hlen hinvalid
    exact ⟨reason, Instr.execute_of_check _ inputs hcheck, congrArg Error.code herror⟩

/-! ## All permutations -/

/-- A shuffle is the union of two swizzles; shuffles of shuffles are shuffles; swizzles of swizzles
are swizzles. A shuffle faults exactly if some index is out of range, at the first such index, and
the instruction then is the one that refuses its immediates. -/
theorem permutations_compose (a b s t : Vec) :
    (∀ indices, InRange indices → shuffle indices a b =
      .ok (a.swizzle (ofIndices indices) ||| b.swizzle
        (IntShape.i8x16.binary .sub (ofIndices indices) (splat byteShape 16#8)))) ∧
    (∀ first second outer, InRange first → InRange second → InRange outer →
      ∃ v w u, shuffle first a b = .ok v ∧ shuffle second a b = .ok w ∧
        shuffle outer v w = .ok u ∧
        shuffle (composeIndices first second outer) a b = .ok u) ∧
    (a.swizzle s).swizzle t = a.swizzle (s.swizzle t |||
      IntShape.i8x16.binary (.compare (.ge .unsigned)) t (splat byteShape 16#8)) ∧
    ∀ indices : Vector UInt8 16,
      ((∃ fault, shuffle indices a b = .error fault) ↔ ∃ i ∈ indices, 32 ≤ i.toNat) ∧
      (∀ fault, shuffle indices a b = .error fault ↔ ∃ k, ∃ hk : k < 16,
        32 ≤ indices[k].toNat ∧ (∀ j, ∀ hj : j < k, indices[j].toNat < 32) ∧
          fault = .shuffle indices[k].toNat) ∧
      ∀ inputs : List Value, inputs.length = 2 →
        ((∃ reason, (Instr.shuffle indices).execute inputs = .error (.rejected reason) ∧
          reason.toError.code = Code.laneIndexOutOfRange) ↔ ∃ i ∈ indices, 32 ≤ i.toNat) := by
  refine ⟨fun indices h => shuffle_eq_or_swizzle h a b, ?_, swizzle_swizzle a s t, fun indices =>
    ⟨exists_fault_iff, fun fault => shuffle_eq_error_iff, fun inputs h =>
      execute_shuffle_rejected_iff h⟩⟩
  intro first second outer hfirst hsecond houter
  obtain ⟨v, hv⟩ := exists_shuffle hfirst a b
  obtain ⟨w, hw⟩ := exists_shuffle hsecond a b
  obtain ⟨u, hu, hcompose⟩ := shuffle_shuffle hv hw houter
  exact ⟨v, w, u, hv, hw, hu, hcompose⟩

/-- The bytes of a vector in the opposite order. -/
def reversal : Vector UInt8 16 :=
  #v[15, 14, 13, 12, 11, 10, 9, 8, 7, 6, 5, 4, 3, 2, 1, 0]

/-- Two reversals leave the bytes in order, and the index 32 is refused although the first operand
is not a vector. -/
theorem permutations_compose_reversal :
    InRange reversal ∧
      shuffle reversal (ofPair 1 2) zero =
        .ok (ofPair 0x0200000000000000 0x0100000000000000) ∧
      (∃ v w u, shuffle reversal (ofPair 1 2) zero = .ok v ∧
        shuffle reversal (ofPair 1 2) zero = .ok w ∧ shuffle reversal v w = .ok u ∧
        shuffle #v[0, 1, 2, 3, 4, 5, 6, 7, 8, 9, 10, 11, 12, 13, 14, 15] (ofPair 1 2) zero =
          .ok u) ∧
      [Value.i32 0#32, .v128 zero].length = 2 ∧
      ∃ reason, (Instr.shuffle (Vector.replicate 16 32)).execute [.i32 0#32, .v128 zero] =
        .error (.rejected reason) ∧ reason.toError.code = 8703 := by
  have hrange : InRange reversal := by decide
  have htwice : composeIndices reversal reversal reversal =
      #v[0, 1, 2, 3, 4, 5, 6, 7, 8, 9, 10, 11, 12, 13, 14, 15] := by decide +kernel
  have h := permutations_compose (ofPair 1 2) zero zero zero
  refine ⟨hrange, (h.1 reversal hrange).trans (congrArg Except.ok ?_), ?_, rfl, ?_⟩
  · decide +kernel
  · rw [← htwice]
    exact h.2.1 reversal reversal reversal hrange hrange hrange
  · exact ((h.2.2.2 (Vector.replicate 16 32)).2.2 [.i32 0#32, .v128 zero] rfl).2
      ⟨32, by simp, by decide⟩

end Vec

end Lanewise
