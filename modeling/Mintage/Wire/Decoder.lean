import Mintage.Hash
import Mintage.Text.Blank
import Mintage.Wire.Error

/-! Reading values off the front of a byte string. A failed read keeps the position that it had
reached, so errors can name offsets of the whole input. -/

namespace Mintage

structure Cursor where
  rest : Bytes
  offset : Nat
deriving DecidableEq, Repr

abbrev Decoder := EStateM DecodeError Cursor

namespace Decoder

/-- Exactly `count` bytes, or nothing consumed. -/
def bytes (count : Nat) : Decoder Bytes := fun cursor =>
  let chunk := cursor.rest.take count
  if chunk.length < count then .error (.endOfData cursor.offset count) cursor
  else .ok chunk ⟨cursor.rest.drop count, cursor.offset + count⟩

/-- An unsigned word of `width` bytes. -/
def word (width : Nat) : Decoder Nat := do
  return (← bytes width).toNat

def byte : Decoder UInt8 := do
  return UInt8.ofNat (← word 1)

def uint32 : Decoder UInt32 := do
  return UInt32.ofNat (← word 4)

def int32 : Decoder Int32 := do
  return (UInt32.ofNat (← word 4)).toInt32

def int64 : Decoder Int64 := do
  return (UInt64.ofNat (← word 8)).toInt64

def hash : Decoder Hash256 := do
  return .ofBytes (← bytes 32)

/-- `count` items in a row, after those already read, which come last first. -/
def itemsAfter {α : Type} (item : Decoder α) : (count : Nat) → (read : List α) → Decoder (List α)
  | 0, read => pure read.reverse
  | count + 1, read => do
    let next ← item
    itemsAfter item count (next :: read)

def items {α : Type} (item : Decoder α) (count : Nat) : Decoder (List α) :=
  itemsAfter item count []

/-- Decodes a whole byte string; nothing may be left over. -/
def run {α : Type} (decoder : Decoder α) (input : Bytes) : Except DecodeError α :=
  match decoder ⟨input, 0⟩ with
  | .error cause _ => .error cause
  | .ok value cursor => if cursor.rest.isEmpty then .ok value else .error (.trailingBytes cursor.rest.length)

/-- Decodes hexadecimal text, blanks around it ignored. -/
def runHex {α : Type} (decoder : Decoder α) (text : String) : Except DecodeError α :=
  match Hex.decode (Text.trim text) with
  | .error cause => .error (.invalidHex cause)
  | .ok input => decoder.run input

end Decoder
end Mintage
