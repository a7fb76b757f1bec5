import Mintage.Wire.Decoder

/-! Compact sizes: counts in one, three, five or nine bytes, of which only the shortest is legal. -/

namespace Mintage

namespace CompactSize

def encode (n : Nat) : Bytes :=
  if n < 0xfd then [UInt8.ofNat n]
  else if n < 0x10000 then 0xfd :: Bytes.ofNat 2 n
  else if n < 0x100000000 then 0xfe :: Bytes.ofNat 4 n
  else 0xff :: Bytes.ofNat 8 n

/-- The number of bytes that `encode` takes. -/
def size (n : Nat) : Nat :=
  if n < 0xfd then 1 else if n < 0x10000 then 3 else if n < 0x100000000 then 5 else 9

@[simp] theorem length_encode (n : Nat) : (encode n).length = size n := by
  unfold encode size
  split
  · rfl
  · split
    · simp
    · split <;> simp

/-- Bytes preceded by their count. -/
def encodeBytes (content : Bytes) : Bytes :=
  encode content.length ++ content

def bytesSize (content : Bytes) : Nat :=
  size content.length + content.length

@[simp] theorem length_encodeBytes (content : Bytes) : (encodeBytes content).length = bytesSize content := by
  simp [encodeBytes, bytesSize]

/-- Items preceded by their count. -/
def encodeItems {α : Type} (item : α → Bytes) (items : List α) : Bytes :=
  encode items.length ++ items.flatMap item

/-- The bytes of items, one after another. -/
def contentSize {α : Type} (itemSize : α → Nat) (items : List α) : Nat :=
  items.foldr (fun item rest => itemSize item + rest) 0

def itemsSize {α : Type} (itemSize : α → Nat) (items : List α) : Nat :=
  size items.length + contentSize itemSize items

end CompactSize

namespace Decoder

/-- A word of `width` bytes that a compact size starting at `start` may hold, `least` being the first
value that no shorter form can. -/
def sizeWord (start width least : Nat) : Decoder Nat := do
  let value ← word width
  if value < least then throw (.nonMinimalSize start)
  return value

def compactSize : Decoder Nat := do
  let start := (← get).offset
  let tag ← word 1
  if tag < 0xfd then return tag
  if tag = 0xfd then sizeWord start 2 0xfd
  else if tag = 0xfe then sizeWord start 4 0x10000
  else sizeWord start 8 0x100000000

/-- A compact size small enough to be a length. -/
def length : Decoder Nat := do
  let count ← compactSize
  if count > maxLength then throw (.oversizedLength count)
  return count

def countedBytes : Decoder Bytes := do
  bytes (← length)

/-- Items preceded by their count. -/
def counted {α : Type} (item : Decoder α) : Decoder (List α) := do
  items item (← length)

end Decoder
end Mintage
