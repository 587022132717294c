import Lanewise.Word
import Lanewise.Error
import Lanewise.Float.Format

/-!
# Little-endian bytes

Vectors and floats are stored least significant byte first. A buffer of bytes is decoded chunk
by chunk (`Bytes.toWords`) and encoded word by word (`Bytes.ofWords`). Both keep the number that
the bytes make up (`pack_toWords`, `pack_ofWords`), so neither loses anything.

Reading a value refuses a list of bytes of the wrong length and nothing else; reading what was
written gives the value back (`readBits_ofBits`).
-/

namespace Lanewise

namespace Bytes

variable {w : Nat}

/-! ## One word -/

/-- The bytes of a word of `n` bytes, the least significant first. -/
def ofBits (x : BitVec w) (n : Nat) : List (BitVec 8) :=
  Word.slices x 8 n

/-- The word that bytes make up, the first byte least significant. -/
def toBits (w : Nat) (bytes : List (BitVec 8)) : BitVec w :=
  BitVec.ofNat w (Word.pack bytes)

/-- A word of `n` bytes; `kind` names what is read. -/
def readBits (kind : String) (w n : Nat) (bytes : List (BitVec 8)) : Except Cause (BitVec w) :=
  if bytes.length = n then .ok (toBits w bytes) else .error (.byteCount kind n)

theorem length_ofBits (x : BitVec w) (n : Nat) : (ofBits x n).length = n :=
  Word.length_slices ..

theorem toBits_ofBits {n : Nat} (h : n * 8 = w) (x : BitVec w) : toBits w (ofBits x n) = x := by
  apply BitVec.eq_of_toNat_eq
  rw [toBits, ofBits, Word.pack_map_slice, BitVec.toNat_ofNat, h, Nat.mod_mod,
    Nat.mod_eq_of_lt x.isLt]

theorem readBits_ofBits (kind : String) {n : Nat} (h : n * 8 = w) (x : BitVec w) :
    readBits kind w n (ofBits x n) = .ok x := by
  rw [readBits, if_pos (length_ofBits x n), toBits_ofBits h]

/-! ## Words in a row -/

/-- `n` chunks of `size` bytes, one after the other. -/
def chunks (size : Nat) : Nat → List (BitVec 8) → List (List (BitVec 8))
  | 0, _ => []
  | n + 1, bytes => bytes.take size :: chunks size n (bytes.drop size)

/-- The words that `n` chunks of `size` bytes make up. -/
def toWords (w size n : Nat) (bytes : List (BitVec 8)) : List (BitVec w) :=
  (chunks size n bytes).map (toBits w)

/-- The bytes of words of `size` bytes, one word after the other. -/
def ofWords (size : Nat) (words : List (BitVec w)) : List (BitVec 8) :=
  words.flatMap (ofBits · size)

theorem length_toWords {size : Nat} :
    ∀ (n : Nat) (bytes : List (BitVec 8)), (toWords w size n bytes).length = n
  | 0, _ => rfl
  | n + 1, bytes => congrArg (· + 1) (length_toWords n (bytes.drop size))

theorem length_ofWords {size : Nat} (words : List (BitVec w)) :
    (ofWords size words).length = words.length * size := by
  induction words with
  | nil => simp [ofWords]
  | cons x words ih =>
    rw [ofWords, List.flatMap_cons, List.length_append, length_ofBits, ← ofWords, ih,
      List.length_cons, Nat.succ_mul, Nat.add_comm]

/-- Words make up the same number as the bytes they are decoded from. -/
theorem pack_toWords {size : Nat} (hw : size * 8 = w) (n : Nat) (bytes : List (BitVec 8))
    (hlen : bytes.length = n * size) : Word.pack (toWords w size n bytes) = Word.pack bytes := by
  induction n generalizing bytes with
  | zero =>
    rw [Nat.zero_mul] at hlen
    rw [List.eq_nil_of_length_eq_zero hlen]
    rfl
  | succ n ih =>
    rw [Nat.succ_mul] at hlen
    have hfirst := Word.pack_lt (bytes.take size)
    have hsplit := Word.pack_append (bytes.take size) (bytes.drop size)
    rw [List.length_take, Nat.min_eq_left (hlen ▸ Nat.le_add_left ..), hw] at hfirst hsplit
    rw [List.take_append_drop] at hsplit
    have hstep : Word.pack (toWords w size (n + 1) bytes) = (toBits w (bytes.take size)).toNat +
        2 ^ w * Word.pack (toWords w size n (bytes.drop size)) := rfl
    rw [hstep, ih _ (by rw [List.length_drop, hlen, Nat.add_sub_cancel]), hsplit, toBits,
      BitVec.toNat_ofNat, Nat.mod_eq_of_lt hfirst]

/-- The bytes that words are encoded to make up the same number. -/
theorem pack_ofWords {size : Nat} (hw : size * 8 = w) (words : List (BitVec w)) :
    Word.pack (ofWords size words) = Word.pack words :=
  Word.pack_flatMap_slices hw words

end Bytes

namespace Format

def toBytes {fmt : Format} (x : fmt.Pattern) : List (BitVec 8) :=
  Bytes.ofBits x (fmt.width / 8)

/-- A pattern of a format whose width is a whole number of bytes. -/
def ofBytes (fmt : Format) (bytes : List (BitVec 8)) : Except Cause fmt.Pattern :=
  Bytes.readBits ("FloatBits" ++ toString fmt.width) fmt.width (fmt.width / 8) bytes

end Format

end Lanewise
