import Lanewise.Vec.Basic

/-!
# Byte permutations

`Vec.swizzle` picks bytes of one vector by the bytes of another, `Vec.shuffle` picks bytes of
two vectors by a constant list of indices.
-/

namespace Lanewise

namespace Vec

/-- The lanes of a permutation of bytes. -/
abbrev byteShape : Shape :=
  IntShape.i8x16

/-- Byte `k` of the result is the byte of `v` that byte `k` of `indices` names, or zero if
it names none. -/
def swizzle (v indices : Vec) : Vec :=
  map byteShape (fun i => if i.toNat < 16 then v.lane byteShape i.toNat else 0#8) indices

/-- Byte `i` of two vectors in a row. -/
def byteOfTwo (a b : Vec) (i : Nat) : BitVec 8 :=
  if i < 16 then a.lane byteShape i else b.lane byteShape (i - 16)

/-- The first index of a shuffle that names no byte of two vectors. -/
def badIndex? (indices : Vector UInt8 16) : Option UInt8 :=
  indices.toList.find? (32 ≤ ·.toNat)

/-- Byte `k` of the result is the byte of the two vectors that index `k` names; every index
must name one. -/
def shuffle (indices : Vector UInt8 16) (a b : Vec) : Except Fault Vec :=
  match badIndex? indices with
  | some i => .error (.shuffle i.toNat)
  | none => .ok (ofLanes byteShape (indices.map fun i => byteOfTwo a b i.toNat))

end Vec

end Lanewise
