import Lanewise.Float.Format

/-!
# Shapes

A `Shape` says how the 128 bits of a vector are cut into lanes of equal width and whether a
lane is an integer or a float. Operations that treat lanes as bits take any shape; integer
operations take an `IntShape`, float operations a `FloatShape`.
-/

namespace Lanewise

/-! ## Integer shapes -/

inductive IntShape where
  | i8x16
  | i16x8
  | i32x4
  | i64x2
  deriving DecidableEq

namespace IntShape

@[reducible] def laneBits : IntShape → Nat
  | i8x16 => 8
  | i16x8 => 16
  | i32x4 => 32
  | i64x2 => 64

@[reducible] def lanes : IntShape → Nat
  | i8x16 => 16
  | i16x8 => 8
  | i32x4 => 4
  | i64x2 => 2

def name : IntShape → String
  | i8x16 => "i8x16"
  | i16x8 => "i16x8"
  | i32x4 => "i32x4"
  | i64x2 => "i64x2"

/-- Lanes narrower than a scalar operand, which are widened when they are extracted. -/
def isNarrow : IntShape → Bool
  | i8x16 | i16x8 => true
  | i32x4 | i64x2 => false

def all : List IntShape :=
  [i8x16, i16x8, i32x4, i64x2]

end IntShape

/-! ## Float shapes -/

inductive FloatShape where
  | f32x4
  | f64x2
  deriving DecidableEq

namespace FloatShape

@[reducible] def format : FloatShape → Format
  | f32x4 => .binary32
  | f64x2 => .binary64

@[reducible] def lanes : FloatShape → Nat
  | f32x4 => 4
  | f64x2 => 2

def name : FloatShape → String
  | f32x4 => "f32x4"
  | f64x2 => "f64x2"

def all : List FloatShape :=
  [f32x4, f64x2]

end FloatShape

/-! ## Shapes -/

inductive Shape where
  | int (s : IntShape)
  | float (s : FloatShape)
  deriving DecidableEq

instance : Coe IntShape Shape :=
  ⟨Shape.int⟩

instance : Coe FloatShape Shape :=
  ⟨Shape.float⟩

namespace Shape

@[reducible] def laneBits : Shape → Nat
  | int s => s.laneBits
  | float s => s.format.width

@[reducible] def lanes : Shape → Nat
  | int s => s.lanes
  | float s => s.lanes

def laneBytes (s : Shape) : Nat :=
  s.laneBits / 8

def name : Shape → String
  | int s => s.name
  | float s => s.name

/-- The six shapes, integer shapes first and narrow lanes first. -/
def all : List Shape :=
  IntShape.all.map int ++ FloatShape.all.map float

theorem mem_all (s : Shape) : s ∈ all := by
  rcases s with s | s <;> cases s <;> decide

/-- The lanes of a shape fill a vector. -/
theorem lanes_mul_laneBits (s : Shape) : s.lanes * s.laneBits = 128 := by
  rcases s with s | s <;> cases s <;> rfl

theorem laneBits_pos (s : Shape) : 0 < s.laneBits := by
  rcases s with s | s <;> cases s <;> decide

theorem lanes_mul_laneBytes (s : Shape) : s.lanes * s.laneBytes = 16 := by
  rcases s with s | s <;> cases s <;> rfl

/-- Lanes are whole bytes. -/
theorem laneBytes_mul_eight (s : Shape) : s.laneBytes * 8 = s.laneBits := by
  rcases s with s | s <;> cases s <;> rfl

end Shape

end Lanewise
