import Mintage.Hex
import Mintage.Hash.Sha256

/-! 256-bit hashes. A hash is a number whose bytes travel least significant first and are displayed
most significant first. -/

namespace Mintage

structure Hash256 where
  bits : BitVec 256
deriving DecidableEq, Repr, Hashable, Inhabited

namespace Hash256

def zero : Hash256 := ⟨0⟩

def toNat (hash : Hash256) : Nat :=
  hash.bits.toNat

/-- The thirty-two bytes of a hash in wire order. -/
def toBytes (hash : Hash256) : Bytes :=
  Bytes.ofNat 32 hash.toNat

def ofBytes (bytes : Bytes) : Hash256 :=
  ⟨BitVec.ofNat 256 bytes.toNat⟩

@[simp] theorem length_toBytes (hash : Hash256) : hash.toBytes.length = 32 := by
  simp [toBytes]

/-- Display order: most significant byte first. -/
def toHex (hash : Hash256) : String :=
  Hex.encode hash.toBytes.reverse

def ofHex (text : String) : Except Hex.Error Hash256 := do
  let bytes ← Hex.decode text
  if bytes.length = 32 then pure (ofBytes bytes.reverse)
  else throw (.wrongLength 32 bytes.length)

/-- Byte strings compare from their first byte, which is the least significant one. -/
def compareBytes (left right : Hash256) : Ordering :=
  compareOfLessAndEq left.toBytes right.toBytes

end Hash256

/-- SHA-256 applied twice. -/
def sha256d (message : Bytes) : Hash256 :=
  .ofBytes (Sha256.digest (Sha256.digest message))

end Mintage
