import Mathlib.Algebra.Group.Nat.Defs
import Mathlib.Data.List.Range

/-!
# Files as bytes

A file has a size and a byte at every number below it. Reads fail past the end.

* `readAt_eq_some`: bytes that are in the file are read;
* `littleEndian_toLittleEndian`: a length that was written is read back modulo `2 ^ 32`.
-/

namespace OpenDsn.Lib

structure File where
  size : Nat
  byte : Nat → UInt8

namespace File

variable {f : File}

/-- `Seek` and `Write`. -/
def writeAt (f : File) (offset : Nat) (bytes : List UInt8) : File :=
  if bytes = [] then f
  else
    { size := max f.size (offset + bytes.length)
      byte := fun i => if offset ≤ i then (bytes[i - offset]?).getD (f.byte i) else f.byte i }

def readAt (f : File) (offset len : Nat) : Option (List UInt8) :=
  if offset + len ≤ f.size then some ((List.range len).map fun i => f.byte (offset + i)) else none

def truncate (f : File) (size : Nat) : File :=
  { size := size
    byte := fun i => if i < size then f.byte i else 0 }

/-- A hole is read as zeros. -/
def punchHole (f : File) (offset len : Nat) : File :=
  { f with byte := fun i => if offset ≤ i ∧ i < offset + len then 0 else f.byte i }

theorem writeAt_byte_lt {offset i : Nat} (h : i < offset) (bytes : List UInt8) :
    (f.writeAt offset bytes).byte i = f.byte i := by
  unfold writeAt
  split
  · rfl
  · exact if_neg (Nat.not_le_of_lt h)

theorem writeAt_byte_ge (f : File) {offset i : Nat} {bytes : List UInt8}
    (h : offset + bytes.length ≤ i) : (f.writeAt offset bytes).byte i = f.byte i := by
  unfold writeAt
  split
  · rfl
  · dsimp only
    rw [List.getElem?_eq_none (by omega)]
    simp

theorem writeAt_byte {offset : Nat} {bytes : List UInt8} {i : Nat} {b : UInt8}
    (h : bytes[i]? = some b) : (f.writeAt offset bytes).byte (offset + i) = b := by
  unfold writeAt
  split
  · next hnil => simp [hnil] at h
  · dsimp only
    rw [if_pos (Nat.le_add_right _ _), Nat.add_sub_cancel_left, h]
    rfl

theorem readAt_eq_some {offset : Nat} (bytes : List UInt8)
    (hsize : offset + bytes.length ≤ f.size)
    (h : ∀ i b, bytes[i]? = some b → f.byte (offset + i) = b) :
    f.readAt offset bytes.length = some bytes := by
  unfold readAt
  rw [if_pos hsize]
  refine congrArg some (List.ext_getElem (by simp) fun i _ hi => ?_)
  rw [List.getElem_map, List.getElem_range]
  exact h i _ (List.getElem?_eq_getElem hi)

end File

/-! ## Little-endian numbers of four bytes -/

def toLittleEndian (n : Nat) : List UInt8 :=
  [UInt8.ofNat n, UInt8.ofNat (n / 2 ^ 8), UInt8.ofNat (n / 2 ^ 16), UInt8.ofNat (n / 2 ^ 24)]

def littleEndian : List UInt8 → Nat
  | [] => 0
  | b :: bytes => b.toNat + 2 ^ 8 * littleEndian bytes

theorem littleEndian_toLittleEndian (n : Nat) : littleEndian (toLittleEndian n) = n % 2 ^ 32 := by
  simp only [toLittleEndian, littleEndian, UInt8.toNat_ofNat']
  omega

end OpenDsn.Lib
