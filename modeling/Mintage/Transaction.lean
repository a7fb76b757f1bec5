import Mintage.Amount
import Mintage.Script
import Mintage.Wire.CompactSize

/-! Transactions: what they spend and create, and the bytes that name them. The witness section is
left out of the bytes that a transaction is identified by. -/

namespace Mintage

structure OutPoint where
  txid : Hash256
  index : UInt32
deriving DecidableEq, Repr

namespace OutPoint

/-- What a coinbase input claims to spend. -/
def null : OutPoint := ⟨.zero, 0xffffffff⟩

def isNull (point : OutPoint) : Bool :=
  point == null

end OutPoint

structure TxInput where
  previous : OutPoint := .null
  scriptSig : Script := []
  sequence : UInt32 := 0xffffffff
  witness : List Bytes := []
deriving DecidableEq, Repr

namespace TxInput

def encode (input : TxInput) : Bytes :=
  input.previous.txid.toBytes ++ Bytes.ofNat 4 input.previous.index.toNat ++
    CompactSize.encodeBytes input.scriptSig ++ Bytes.ofNat 4 input.sequence.toNat

def encodeWitness (input : TxInput) : Bytes :=
  CompactSize.encodeItems CompactSize.encodeBytes input.witness

def decoder : Decoder TxInput := do
  let txid ← Decoder.hash
  let index ← Decoder.uint32
  let scriptSig ← Decoder.countedBytes
  let sequence ← Decoder.uint32
  return { previous := ⟨txid, index⟩, scriptSig, sequence }

/-- The input with the witness that follows. -/
def witnessed (input : TxInput) : Decoder TxInput := do
  let witness ← Decoder.counted Decoder.countedBytes
  return { input with witness }

def size (input : TxInput) : Nat :=
  32 + 4 + CompactSize.bytesSize input.scriptSig + 4

def witnessSize (input : TxInput) : Nat :=
  CompactSize.itemsSize CompactSize.bytesSize input.witness

end TxInput

structure TxOutput where
  value : Amount
  script : Script
deriving DecidableEq, Repr

namespace TxOutput

/-- The marker that a coinstake carries first. -/
def empty : TxOutput := ⟨0, []⟩

def isEmpty (output : TxOutput) : Bool :=
  output.value == 0 && output.script.isEmpty

def encode (output : TxOutput) : Bytes :=
  Bytes.ofNat 8 output.value.toUInt64.toNat ++ CompactSize.encodeBytes output.script

def decoder : Decoder TxOutput := do
  let value ← Decoder.int64
  let script ← Decoder.countedBytes
  return { value, script }

def size (output : TxOutput) : Nat :=
  8 + CompactSize.bytesSize output.script

end TxOutput

structure Transaction where
  version : Int32 := 1
  inputs : List TxInput := []
  outputs : List TxOutput := []
  lockTime : UInt32 := 0
deriving DecidableEq, Repr

namespace Transaction

/-- One input, which spends nothing. -/
def isCoinbase (tx : Transaction) : Bool :=
  match tx.inputs with
  | [input] => input.previous.isNull
  | _ => false

/-- A first input that spends something, and an empty output before the others. -/
def isCoinstake (tx : Transaction) : Bool :=
  match tx.inputs, tx.outputs with
  | input :: _, marker :: _ :: _ => !input.previous.isNull && marker.isEmpty
  | _, _ => false

def hasWitness (tx : Transaction) : Bool :=
  tx.inputs.any fun input => !input.witness.isEmpty

def totalOutput (tx : Transaction) : Amount :=
  Amount.total (tx.outputs.map TxOutput.value)

/-- A witness section is written only when there is something in it; a zero count of inputs and a
flag announce it. -/
def encodeWith (tx : Transaction) (witness : Bool) : Bytes :=
  let extended := witness && tx.hasWitness
  Bytes.ofNat 4 tx.version.toUInt32.toNat ++ (if extended then [0, 1] else []) ++
    CompactSize.encodeItems TxInput.encode tx.inputs ++
    CompactSize.encodeItems TxOutput.encode tx.outputs ++
    (if extended then tx.inputs.flatMap TxInput.encodeWitness else []) ++
    Bytes.ofNat 4 tx.lockTime.toNat

def encode (tx : Transaction) : Bytes :=
  tx.encodeWith true

def txid (tx : Transaction) : Hash256 :=
  sha256d (tx.encodeWith false)

def wtxid (tx : Transaction) : Hash256 :=
  sha256d tx.encode

/-- One witness for each input, of which some must have an item. -/
def witnessSection (inputs : List TxInput) : Decoder (List TxInput) := do
  let inputs ← inputs.mapM TxInput.witnessed
  if inputs.all (·.witness.isEmpty) then throw .emptyWitness
  return inputs

/-- What follows a zero count of inputs: a flag whose low bit announces witnesses and whose other bits
must be clear, or a zero, after which a transaction has neither inputs nor outputs. -/
def flaggedDecoder (version : Int32) : Decoder Transaction := do
  let flag ← Decoder.byte
  if flag = 0 then
    return { version, lockTime := ← Decoder.uint32 }
  let inputs ← Decoder.counted TxInput.decoder
  let outputs ← Decoder.counted TxOutput.decoder
  let inputs ← if flag &&& 1 = 1 then witnessSection inputs else pure inputs
  if flag &&& 0xfe ≠ 0 then throw (.unknownFlag (flag &&& 0xfe))
  return { version, inputs, outputs, lockTime := ← Decoder.uint32 }

def decoder : Decoder Transaction := do
  let version ← Decoder.int32
  let inputs ← Decoder.counted TxInput.decoder
  if inputs.isEmpty then flaggedDecoder version
  else
    let outputs ← Decoder.counted TxOutput.decoder
    return { version, inputs, outputs, lockTime := ← Decoder.uint32 }

/-- The size of the bytes without a witness. -/
def baseSize (tx : Transaction) : Nat :=
  4 + CompactSize.itemsSize TxInput.size tx.inputs + CompactSize.itemsSize TxOutput.size tx.outputs + 4

def totalSize (tx : Transaction) : Nat :=
  if tx.hasWitness then tx.baseSize + 2 + CompactSize.contentSize TxInput.witnessSize tx.inputs else tx.baseSize

/-- Witness bytes weigh one unit, all others four. -/
def weight (tx : Transaction) : Nat :=
  tx.baseSize * 3 + tx.totalSize

end Transaction
end Mintage
