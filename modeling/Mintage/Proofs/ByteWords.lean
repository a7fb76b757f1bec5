import Mathlib.Algebra.Group.Nat.Defs
import Mathlib.Data.List.Basic
import Mintage.Hash

/-! Words and their bytes. The bytes of one width and the words below its bound determine each other, which
is all that the wire codec needs to know about integers. A text in ASCII has one byte for each character. -/

namespace Mintage

namespace Bytes

theorem toNat_ofNat (width n : Nat) : toNat (ofNat width n) = n % 256 ^ width := by
  induction width generalizing n with
  | zero => simp [ofNat, toNat, Nat.mod_one]
  | succ width ih =>
    have split : n % 256 ^ (width + 1) = n % 256 + 256 * (n / 256 % 256 ^ width) := by
      rw [Nat.pow_succ', Nat.mod_mul]
    rw [split, ofNat, toNat, ih, UInt8.toNat_ofNat']

theorem toNat_lt (bytes : Bytes) : toNat bytes < 256 ^ bytes.length := by
  induction bytes with
  | nil => simp [toNat]
  | cons byte rest ih =>
    have small := byte.toNat_lt
    simp only [toNat, List.length_cons, Nat.pow_succ]
    omega

theorem ofNat_toNat (bytes : Bytes) : ofNat bytes.length (toNat bytes) = bytes := by
  induction bytes with
  | nil => rfl
  | cons byte rest ih =>
    have small := byte.toNat_lt
    have shifted : (byte.toNat + 256 * toNat rest) / 256 = toNat rest := by omega
    have low : UInt8.ofNat (byte.toNat + 256 * toNat rest) = byte := by
      apply UInt8.toNat_inj.1
      rw [UInt8.toNat_ofNat']
      omega
    simp only [toNat, List.length_cons, ofNat, shifted, ih, low]

/-- The byte of a character in ASCII. -/
def ofChar (c : Char) : UInt8 :=
  c.val.toUInt8

theorem ofString_ofList {chars : List Char} (ascii : ∀ c ∈ chars, c.val ≤ 127) :
    ofString (String.ofList chars) = chars.map ofChar := by
  rw [ofString, String.toList_ofList, ← List.flatMap_pure_eq_map]
  apply List.flatMap_congr
  intro c listed
  exact String.utf8EncodeChar_eq_singleton (Char.utf8Size_eq_one_iff.mpr (ascii c listed))

end Bytes

namespace Hash256

theorem toNat_lt (hash : Hash256) : hash.toNat < 256 ^ 32 :=
  hash.bits.isLt

@[simp] theorem ofBytes_toBytes (hash : Hash256) : ofBytes hash.toBytes = hash := by
  have value : hash.toBytes.toNat = hash.bits.toNat := by
    rw [toBytes, Bytes.toNat_ofNat, Nat.mod_eq_of_lt hash.toNat_lt, toNat]
  rw [ofBytes, value, BitVec.ofNat_toNat, BitVec.setWidth_eq]

theorem toBytes_ofBytes {bytes : Bytes} (size : bytes.length = 32) : (ofBytes bytes).toBytes = bytes := by
  have small : bytes.toNat < 2 ^ 256 := by
    have bound := Bytes.toNat_lt bytes
    rw [size] at bound
    exact bound
  have value : (ofBytes bytes).toNat = bytes.toNat := by
    simp only [ofBytes, toNat, BitVec.toNat_ofNat]
    exact Nat.mod_eq_of_lt small
  rw [toBytes, value, ← size]
  exact Bytes.ofNat_toNat bytes

end Hash256
end Mintage
