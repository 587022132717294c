import Lanewise.Vec.Basic

/-!
# Bitwise logic

Logic on the two halves of a vector. No shape is involved : the lanes of a result are the same
combination of the lanes of the operands, whatever the shape.
-/

namespace Lanewise

namespace Vec

/-! ## Both halves at once -/

def mapHalves (f : BitVec 64 → BitVec 64) (v : Vec) : Vec :=
  let (low, high) := v.toPair
  ofPair (f low) (f high)

def zipHalves (f : BitVec 64 → BitVec 64 → BitVec 64) (v w : Vec) : Vec :=
  let (vLow, vHigh) := v.toPair
  let (wLow, wHigh) := w.toPair
  ofPair (f vLow wLow) (f vHigh wHigh)

/-! ## Operations -/

def not (a : Vec) : Vec :=
  mapHalves (~~~·) a

def and (a b : Vec) : Vec :=
  zipHalves (· &&& ·) a b

def or (a b : Vec) : Vec :=
  zipHalves (· ||| ·) a b

def xor (a b : Vec) : Vec :=
  zipHalves (· ^^^ ·) a b

/-- The bits of `a` that are not in `b`. -/
def andNot (a b : Vec) : Vec :=
  zipHalves (fun x y => x &&& ~~~y) a b

/-- The bits of `a` where the mask is set and those of `b` elsewhere. -/
def bitselect (a b mask : Vec) : Vec :=
  (a.and mask).or (b.andNot mask)

/-- Some bit is set. -/
def anyTrue (v : Vec) : Bool :=
  let (low, high) := v.toPair
  low ||| high != 0#64

instance : Complement Vec :=
  ⟨not⟩

instance : AndOp Vec :=
  ⟨and⟩

instance : OrOp Vec :=
  ⟨or⟩

instance : XorOp Vec :=
  ⟨xor⟩

end Vec

end Lanewise
