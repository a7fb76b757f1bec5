import Mintage.Hex

/-! Why a byte string is not the encoding of a value. -/

namespace Mintage

/-- The largest element count or byte count that a length may announce. -/
def maxLength : Nat := 32 * 1024 * 1024

inductive DecodeError where
  | endOfData (offset needed : Nat)
  | nonMinimalSize (offset : Nat)
  | oversizedLength (length : Nat)
  | unknownFlag (flag : UInt8)
  | emptyWitness
  | trailingBytes (count : Nat)
  | invalidHex (cause : Hex.Error)
deriving DecidableEq, Repr

namespace DecodeError

def message : DecodeError → String
  | endOfData offset needed => s!"unexpected end of data: needed {needed} bytes at offset {offset}"
  | nonMinimalSize offset => s!"non-minimal compact size at offset {offset}"
  | oversizedLength length => s!"length {length} exceeds maximum {maxLength}"
  | unknownFlag flag => "unsupported witness flag 0x" ++ Hex.padded 2 flag.toNat
  | emptyWitness => "superfluous witness record"
  | trailingBytes count => s!"{count} trailing bytes after decode"
  | invalidHex cause => "invalid hex: " ++ cause.message

end DecodeError
end Mintage
