import Mintage.Hex

/-! Proof-of-work targets and their compact form: a byte length, a sign bit and the leading
twenty-three bits. Targets and work are numbers of 256 bits. -/

namespace Mintage

/-- One more than the largest target. -/
def targetBound : Nat := 1 <<< 256

structure CompactTarget where
  target : Nat
  negative : Bool
  overflow : Bool
deriving DecidableEq, Repr

namespace CompactTarget

def valid (compact : CompactTarget) : Bool :=
  !compact.negative && !compact.overflow && compact.target != 0

/-- Reads the compact form. A target that would need more than 256 bits reads as zero. -/
def decode (bits : UInt32) : CompactTarget :=
  let size := bits.toNat >>> 24
  let word := bits.toNat % 0x800000
  let signed := bits.toNat >>> 23 % 2 == 1
  let overflow := word != 0 && (size > 34 || (word > 0xff && size > 33) || (word > 0xffff && size > 32))
  let target :=
    if overflow then 0
    else if size ≤ 3 then word >>> (8 * (3 - size))
    else word <<< (8 * (size - 3)) % targetBound
  { target, negative := word != 0 && signed, overflow }

/-- The number of bytes that a number needs. -/
def byteLength (n : Nat) : Nat :=
  if n = 0 then 0 else n.log2 / 8 + 1

/-- The compact form of a target, its low bits dropped. A leading bit in the place of the sign moves
the digits down by a byte. -/
def encode (target : Nat) : UInt32 :=
  let size := byteLength target
  let word := if size ≤ 3 then target <<< (8 * (3 - size)) else target >>> (8 * (size - 3))
  if word < 0x800000 then UInt32.ofNat (word + size <<< 24)
  else UInt32.ofNat (word / 256 + (size + 1) <<< 24)

end CompactTarget

/-- The expected number of hashes for a header with these bits: 2^256 over the target plus one. -/
def blockProof (bits : UInt32) : Nat :=
  let compact := CompactTarget.decode bits
  if compact.valid then (targetBound - 1 - compact.target) / (compact.target + 1) + 1 else 0

/-- Multiplies by 256 so many times. -/
def scaleUp : Nat → Float → Float
  | 0, x => x
  | n + 1, x => scaleUp n (x * 256)

/-- Divides by 256 so many times. -/
def scaleDown : Nat → Float → Float
  | 0, x => x
  | n + 1, x => scaleDown n (x / 256)

/-- How many times harder than the target of bits 0x1d00ffff; the sign bit counts as a digit here. -/
def difficulty (bits : UInt32) : Float :=
  let digits := bits.toNat % 0x1000000
  let size := bits.toNat >>> 24
  if digits = 0 then 0
  else scaleDown (size - 29) (scaleUp (29 - size) (65535 / digits.toFloat))

def targetHex (target : Nat) : String :=
  Hex.padded 64 target

end Mintage
