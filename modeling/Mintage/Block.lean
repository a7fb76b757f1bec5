import Mintage.Hash.Merkle
import Mintage.Transaction

/-! Block headers and blocks. A block is named by its eighty header bytes; these commit to the
transactions without their witnesses. -/

namespace Mintage

structure BlockHeader where
  version : Int32 := 0
  previous : Hash256 := .zero
  merkleRoot : Hash256 := .zero
  time : UInt32 := 0
  bits : UInt32 := 0
  nonce : UInt32 := 0
deriving DecidableEq, Repr

namespace BlockHeader

def encode (header : BlockHeader) : Bytes :=
  Bytes.ofNat 4 header.version.toUInt32.toNat ++ header.previous.toBytes ++ header.merkleRoot.toBytes ++
    Bytes.ofNat 4 header.time.toNat ++ Bytes.ofNat 4 header.bits.toNat ++ Bytes.ofNat 4 header.nonce.toNat

def decoder : Decoder BlockHeader := do
  let version ← Decoder.int32
  let previous ← Decoder.hash
  let merkleRoot ← Decoder.hash
  let time ← Decoder.uint32
  let bits ← Decoder.uint32
  let nonce ← Decoder.uint32
  return { version, previous, merkleRoot, time, bits, nonce }

def hash (header : BlockHeader) : Hash256 :=
  sha256d header.encode

def size : Nat := 80

@[simp] theorem length_encode (header : BlockHeader) : header.encode.length = size := by
  simp [encode, size]

end BlockHeader

structure Block where
  header : BlockHeader := {}
  transactions : List Transaction := []
deriving DecidableEq, Repr

namespace Block

def hash (block : Block) : Hash256 :=
  block.header.hash

/-- The first transaction, if it is a coinbase. -/
def coinbase? (block : Block) : Option Transaction :=
  block.transactions.head?.filter Transaction.isCoinbase

/-- Changes the first transaction, if there is one. -/
def modifyFirst (change : Transaction → Transaction) (block : Block) : Block :=
  { block with transactions := block.transactions.modifyHead change }

def computeMerkleRoot (block : Block) : Hash256 :=
  merkleRoot (block.transactions.map Transaction.txid)

/-- The root over the hashes that cover witnesses, with zero in the first place. -/
def computeWitnessRoot (block : Block) : Hash256 :=
  match block.transactions with
  | [] => merkleRoot []
  | _ :: rest => merkleRoot (.zero :: rest.map Transaction.wtxid)

/-- The block with the merkle root of its own transactions. -/
def sealed (block : Block) : Block :=
  { block with header := { block.header with merkleRoot := block.computeMerkleRoot } }

def baseSize (block : Block) : Nat :=
  BlockHeader.size + CompactSize.itemsSize Transaction.baseSize block.transactions

def totalSize (block : Block) : Nat :=
  BlockHeader.size + CompactSize.itemsSize Transaction.totalSize block.transactions

def weight (block : Block) : Nat :=
  block.baseSize * 3 + block.totalSize

def encode (block : Block) : Bytes :=
  block.header.encode ++ CompactSize.encodeItems Transaction.encode block.transactions

def decoder : Decoder Block := do
  let header ← BlockHeader.decoder
  let transactions ← Decoder.counted Transaction.decoder
  return { header, transactions }

end Block
end Mintage
