import Lanewise.Proofs.Instr.Validation
import Lanewise.Proofs.Vec.Bytes

/-!
# Sequences of lane writes

A `LaneWrite` replaces one lane of one shape, by the operation on vectors or by an instruction with
a scalar operand. It decodes and encodes the whole vector, but a byte of the result is a byte of
what was written if the lane covers it, and the old byte otherwise (`byte_of_performs`). The shapes
of a sequence may differ, since bytes are cut alike by all of them.

`lastByte` is the byte that the last write covering a position put there.
`LaneWrite.last_write_wins` : a sequence of writes ends in the vector of these bytes, and a lane
that is read from it in any shape is made of them.
-/

namespace Lanewise

/-! ## Scalars -/

/-- The bytes of a value, the least significant first. -/
def Value.byte : Value → ℕ → BitVec 8
  | v128 v, k => v.byte k
  | i32 x, k => Word.slice x 8 k
  | i64 x, k => Word.slice x 8 k
  | f32 x, k => Word.slice x 8 k
  | f64 x, k => Word.slice x 8 k

namespace Shape

/-- What a lane is written from has the bytes of the scalar. -/
theorem slice_laneOfScalar (s : Shape) (x : s.scalar.Carrier) {j : ℕ} (hj : j < s.laneBytes) :
    Word.slice (s.laneOfScalar x) 8 j = (Value.of s.scalar x).byte j := by
  match s, x with
  | int .i8x16, x => exact Word.slice_setWidth x (Nat.mul_le_mul_right 8 hj)
  | int .i16x8, x => exact Word.slice_setWidth x (Nat.mul_le_mul_right 8 hj)
  | int .i32x4, x => rfl
  | int .i64x2, x => rfl
  | float .f32x4, x => rfl
  | float .f64x2, x => rfl

/-- A value is what an instruction reads a lane as : an integer of 32 bits for the same number, or
the very bits of a lane that is as wide as its scalar. -/
def ReadsAs : (s : Shape) → Option Signedness → BitVec s.laneBits → Value → Prop
  | int _, some sign, x, r => ∃ y : BitVec 32, r = .i32 y ∧ y.toInt = sign.value x
  | int .i32x4, none, x, r => r = .i32 x
  | int .i64x2, none, x, r => r = .i64 x
  | float .f32x4, none, x, r => r = .f32 x
  | float .f64x2, none, x, r => r = .f64 x
  | _, _, _, _ => False

theorem readsAs_scalarOfLane (s : Shape) (sign : Option Signedness)
    (widened : sign.isSome = s.isNarrow) (x : BitVec s.laneBits) :
    s.ReadsAs sign x (Value.of s.scalar (s.scalarOfLane (sign.getD .unsigned) x)) := by
  match s, sign, widened, x with
  | int .i8x16, some sign, _, x => exact ⟨_, rfl, sign.toInt_extend (by decide) x⟩
  | int .i16x8, some sign, _, x => exact ⟨_, rfl, sign.toInt_extend (by decide) x⟩
  | int .i32x4, none, _, x => exact rfl
  | int .i64x2, none, _, x => exact rfl
  | float .f32x4, none, _, x => exact rfl
  | float .f64x2, none, _, x => exact rfl

end Shape

namespace Instr

/-- A lane that exists is the only immediate to check. -/
theorem validImmediates_of_lane {i : Instr} {s : Shape} {k : UInt8}
    (hlane : i.laneImmediate? = some k) (hshape : i.shape? = some s)
    (hshuffle : i.shuffleIndices = []) (hk : k.toNat < s.lanes) : i.ValidImmediates := by
  simpa [ValidImmediates, hlane, hshape, hshuffle] using hk

theorem execute_replaceLane {s : Shape} {k : UInt8} (hk : k.toNat < s.lanes) {v w : Vec}
    (x : s.scalar.Carrier) (h : Vec.replaceLane s k.toNat (s.laneOfScalar x) v = .ok w) :
    (replaceLane s k).execute [.v128 v, .of s.scalar x] = .ok (.v128 w) := by
  have hargs : Args.read (replaceLane s k).operands [.v128 v, .of s.scalar x] = .ok (v, x, ()) := by
    have hv : Value.as? .v128 (.v128 v) = some v := rfl
    simp only [Args.read, hv, Value.as?_of]
  exact execute_of_run rfl (validImmediates_of_lane rfl rfl rfl hk) hargs h

theorem execute_extractLane {s : Shape} {k : UInt8} (hk : k.toNat < s.lanes)
    (sign : Option Signedness) (widened : sign.isSome = s.isNarrow) (v : Vec) :
    ∃ r, (extractLane s sign k widened).execute [.v128 v] = .ok r ∧
      s.ReadsAs sign (v.lane s k.toNat) r := by
  have hrun : (extractLane s sign k widened).run (v, ()) =
      .ok (s.scalarOfLane (sign.getD .unsigned) (v.lane s k.toNat)) :=
    congrArg (Except.map _) (Vec.extractLane_eq_ok s k.toNat v hk)
  exact ⟨_, execute_of_run rfl (validImmediates_of_lane rfl rfl rfl hk) rfl hrun,
    s.readsAs_scalarOfLane sign widened _⟩

end Instr

/-! ## Writes -/

/-- What is written into a lane : the bits of a lane, or the scalar operand of an instruction. -/
inductive LaneSource (s : Shape) where
  | lane (x : BitVec s.laneBits)
  | scalar (x : s.scalar.Carrier)

namespace LaneSource

variable {s : Shape}

/-- The bits of the lane. -/
def bits : LaneSource s → BitVec s.laneBits
  | lane x => x
  | scalar x => s.laneOfScalar x

/-- The bytes of what is written, the least significant first. -/
def byte : LaneSource s → ℕ → BitVec 8
  | lane x, j => Word.slice x 8 j
  | scalar x, j => (Value.of s.scalar x).byte j

theorem slice_bits (source : LaneSource s) {j : ℕ} (hj : j < s.laneBytes) :
    Word.slice source.bits 8 j = source.byte j := by
  cases source with
  | lane x => rfl
  | scalar x => exact s.slice_laneOfScalar x hj

end LaneSource

/-- A replacement of a lane that exists. -/
structure LaneWrite where
  shape : Shape
  index : UInt8
  inRange : index.toNat < shape.lanes
  source : LaneSource shape

namespace LaneWrite

variable {write : LaneWrite} {writes : List LaneWrite} {u v w : Vec} {k : ℕ}

/-- The write makes the vector `w` of the vector `v`. -/
def Performs (write : LaneWrite) (v w : Vec) : Prop :=
  match write.source with
  | .lane x => Vec.replaceLane write.shape write.index.toNat x v = .ok w
  | .scalar x => (Instr.replaceLane write.shape write.index).execute
      [.v128 v, .of write.shape.scalar x] = .ok (.v128 w)

/-- The lane contains byte `k`. -/
def Covers (write : LaneWrite) (k : ℕ) : Prop :=
  write.index.toNat * write.shape.laneBytes ≤ k ∧
    k < (write.index.toNat + 1) * write.shape.laneBytes

instance (write : LaneWrite) (k : ℕ) : Decidable (write.Covers k) :=
  inferInstanceAs (Decidable (_ ∧ _))

/-- The byte that is written at position `k`. -/
def byte (write : LaneWrite) (k : ℕ) : BitVec 8 :=
  write.source.byte (k - write.index.toNat * write.shape.laneBytes)

theorem exists_replaceLane (write : LaneWrite) (v : Vec) :
    ∃ w, Vec.replaceLane write.shape write.index.toNat write.source.bits v = .ok w :=
  ⟨_, dif_pos write.inRange⟩

/-- The instruction writes what the operation on vectors writes. -/
theorem performs_iff : write.Performs v w ↔
    Vec.replaceLane write.shape write.index.toNat write.source.bits v = .ok w := by
  obtain ⟨u, hu⟩ := write.exists_replaceLane v
  unfold Performs
  unfold LaneSource.bits at hu ⊢
  cases hsource : write.source with
  | lane x => exact Iff.rfl
  | scalar x =>
    rw [hsource] at hu
    simp only at hu ⊢
    rw [Instr.execute_replaceLane write.inRange x hu, hu]
    simp

/-- A write changes the bytes it covers and no other. -/
theorem byte_of_performs (h : write.Performs v w) (hk : k < 16) :
    w.byte k = if write.Covers k then write.byte k else v.byte k := by
  have hbyte := Vec.byte_replaceLane (performs_iff.1 h) hk
  by_cases hcovers : write.Covers k
  · have hinside : k - write.index.toNat * write.shape.laneBytes < write.shape.laneBytes := by
      have hlt := hcovers.2
      rw [Nat.succ_mul] at hlt
      have hle := hcovers.1
      omega
    rw [hbyte.trans (if_pos hcovers), if_pos hcovers, LaneSource.slice_bits _ hinside, byte]
  · rw [hbyte.trans (if_neg hcovers), if_neg hcovers]

/-! ## Sequences -/

/-- The writes make the vector `w` of the vector `v`, one after the other. -/
inductive Run : List LaneWrite → Vec → Vec → Prop
  | nil (v : Vec) : Run [] v v
  | cons {write : LaneWrite} {writes : List LaneWrite} {v u w : Vec}
      (first : write.Performs v u) (rest : Run writes u w) : Run (write :: writes) v w

/-- The byte of the last write that covers position `k`, or the byte of the vector before. -/
def lastByte (writes : List LaneWrite) (v : Vec) (k : ℕ) : BitVec 8 :=
  match writes.reverse.find? (·.Covers k) with
  | some write => write.byte k
  | none => v.byte k

/-- The first write is the last one where no other write covers the position. -/
theorem lastByte_cons (h : u.byte k = if write.Covers k then write.byte k else v.byte k) :
    lastByte (write :: writes) v k = lastByte writes u k := by
  unfold lastByte
  rw [List.reverse_cons, List.find?_append]
  cases writes.reverse.find? (·.Covers k) with
  | some last => rfl
  | none =>
    by_cases hcovers : write.Covers k <;> simp [hcovers, h]

theorem byte_of_run (h : Run writes v w) (hk : k < 16) : w.byte k = lastByte writes v k := by
  induction h with
  | nil v => rfl
  | cons first rest ih => rw [ih, lastByte_cons (byte_of_performs first hk)]

/-- Every lane exists, so the writes go through. -/
theorem exists_run (writes : List LaneWrite) (v : Vec) : ∃ w, Run writes v w := by
  induction writes generalizing v with
  | nil => exact ⟨v, .nil v⟩
  | cons write writes ih =>
    obtain ⟨u, hu⟩ := write.exists_replaceLane v
    obtain ⟨w, hw⟩ := ih u
    exact ⟨w, .cons (performs_iff.2 hu) hw⟩

/-- A sequence of writes ends in one vector. Its bytes are those of the last writes that cover
them, and every lane that is read from it, by the operation or by an instruction, is made of these
bytes. -/
theorem last_write_wins (writes : List LaneWrite) (v : Vec) :
    ∃ w, (∀ w', Run writes v w' ↔ w' = w) ∧
      w.toBytes = (List.range 16).map (lastByte writes v) ∧
      (∀ (s : Shape) (i : ℕ), i < s.lanes →
        Vec.extractLane s i w = .ok (s.laneOfBytes (lastByte writes v) i)) ∧
      ∀ (s : Shape) (sign : Option Signedness) (i : UInt8)
        (widened : sign.isSome = s.isNarrow), i.toNat < s.lanes →
        ∃ r, (Instr.extractLane s sign i widened).execute [.v128 w] = .ok r ∧
          s.ReadsAs sign (s.laneOfBytes (lastByte writes v) i.toNat) r := by
  obtain ⟨w, hw⟩ := exists_run writes v
  have hbyte (k : ℕ) (hk : k < 16) : w.byte k = lastByte writes v k := byte_of_run hw hk
  have hlane (s : Shape) (i : ℕ) (hi : i < s.lanes) :
      w.lane s i = s.laneOfBytes (lastByte writes v) i := by
    rw [Vec.lane_eq_laneOfBytes]
    exact s.laneOfBytes_congr hbyte hi
  refine ⟨w, fun w' => ⟨fun hw' => ?_, fun heq => heq ▸ hw⟩, ?_, fun s i hi => ?_,
    fun s sign i widened hi => ?_⟩
  · exact Vec.ext_byte fun k hk => (byte_of_run hw' hk).trans (hbyte k hk).symm
  · rw [Vec.toBytes_eq_map_byte]
    exact List.map_congr_left fun k hk => hbyte k (List.mem_range.1 hk)
  · rw [Vec.extractLane_eq_ok s i w hi, hlane s i hi]
  · rw [← hlane s i.toNat hi]
    exact Instr.execute_extractLane hi sign widened w

/-- A signalling NaN into the last lane of four. -/
def signalling : LaneWrite where
  shape := FloatShape.f32x4
  index := 3
  inRange := by decide
  source := .lane 0x7FA00001#32

/-- A number of nine bits into the lowest byte of that lane. -/
def truncated : LaneWrite where
  shape := IntShape.i8x16
  index := 12
  inRange := by decide
  source := .scalar 0x1FE#32

/-- The second write changes one byte of the payload, and the NaN stays signalling. -/
theorem last_write_wins_overlap :
    ∃ w, Run [signalling, truncated] Vec.zero w ∧
      Vec.extractLane FloatShape.f32x4 3 w = .ok 0x7FA000FE#32 ∧
      (Instr.extractLane IntShape.i8x16 (some .signed) 12 rfl).execute [.v128 w] =
        .ok (.i32 (-2)) := by
  obtain ⟨w, hrun, -, hlane, hinstr⟩ := last_write_wins [signalling, truncated] Vec.zero
  refine ⟨w, (hrun w).2 rfl, hlane FloatShape.f32x4 3 (by decide), ?_⟩
  obtain ⟨r, hr, y, rfl, hy⟩ := hinstr IntShape.i8x16 (some .signed) 12 rfl (by decide)
  have hvalue : y = -2 := BitVec.eq_of_toInt_eq hy
  rw [hr, hvalue]

end LaneWrite

end Lanewise
