import Mintage.Json
import Mintage.Mining.Template
import Mintage.Target

/-! What the mining interface answers with, under the names that mining software expects. -/

namespace Mintage

structure TemplateTransaction where
  data : String
  txid : String
  hash : String
  fee : Amount
deriving DecidableEq, Repr

namespace TemplateTransaction

def ofTransaction (tx : Transaction) (fee : Amount) : TemplateTransaction where
  data := Hex.encode tx.encode
  txid := tx.txid.toHex
  hash := tx.wtxid.toHex
  fee

def toJson (tx : TemplateTransaction) : Json :=
  .object [("data", .text tx.data), ("txid", .text tx.txid), ("hash", .text tx.hash), ("fee", .int tx.fee.toInt)]

end TemplateTransaction

structure TemplateReply where
  version : UInt32
  previousBlockHash : String
  coinbaseValue : Amount
  target : String
  time : UInt32
  bits : String
  height : Nat
  transactions : List TemplateTransaction
  flags : String
  commitment : Option String
deriving DecidableEq, Repr

namespace TemplateReply

/-- Every nonce there is. -/
def nonceRange : String := "00000000ffffffff"

/-- What a client may know of a template on a tip with this hash; the commitment is for clients that know
the witness rule. -/
def ofTemplate (template : BlockTemplate) (tip : Hash256) (flags : String) (witness : Bool) : TemplateReply :=
  let header := template.block.header
  let first := template.block.coinbase?.bind (·.outputs.head?)
  let listed := (template.block.transactions.zip template.fees).filter (!·.1.isCoinbase)
  { version := header.version.toUInt32
    previousBlockHash := tip.toHex
    coinbaseValue := (first.map TxOutput.value).getD 0
    target := targetHex (CompactTarget.decode header.bits).target
    time := header.time
    bits := Hex.padded 8 header.bits.toNat
    height := template.height
    transactions := listed.map fun (tx, fee) => .ofTransaction tx fee
    flags := Hex.encode (Bytes.ofString flags)
    commitment := if witness then (template.commitment.filter (!·.isEmpty)).map Hex.encode else none }

def toJson (reply : TemplateReply) : Json :=
  .object ([
    ("version", .int reply.version.toNat),
    ("previousblockhash", .text reply.previousBlockHash),
    ("coinbasevalue", .int reply.coinbaseValue.toInt),
    ("target", .text reply.target),
    ("noncerange", .text nonceRange),
    ("curtime", .int reply.time.toNat),
    ("bits", .text reply.bits),
    ("height", .int reply.height),
    ("transactions", .array (reply.transactions.map TemplateTransaction.toJson)),
    ("coinbaseaux", .object [("flags", .text reply.flags)])] ++
    (reply.commitment.map fun commitment => ("default_witness_commitment", Json.text commitment)).toList)

end TemplateReply

/-- How a submitted block fared that was not rejected. -/
inductive Submission where
  | accepted
  | duplicate
  | duplicateInconclusive
  | inconclusive
deriving DecidableEq, Repr

namespace Submission

/-- Nothing is said about a block that became the tip. -/
def status? : Submission → Option String
  | accepted => none
  | duplicate => some "duplicate"
  | duplicateInconclusive => some "duplicate-inconclusive"
  | inconclusive => some "inconclusive"

def toJson (outcome : Submission) : Json :=
  outcome.status?.elim .null .text

end Submission

structure MiningInfo where
  blocks : Nat
  blockSize : UInt64
  blockWeight : UInt64
  difficulty : Float
  hashRate : Float
  chain : String

def MiningInfo.toJson (info : MiningInfo) : Json :=
  .object [
    ("blocks", .int info.blocks),
    ("currentblocksize", .int info.blockSize.toNat),
    ("currentblockweight", .int info.blockWeight.toNat),
    ("difficulty", .float info.difficulty),
    ("networkhashps", .float info.hashRate),
    ("chain", .text info.chain)]

structure StakingInfo where
  enabled : Bool := false
  staking : Bool := false
  errors : Option String := none
  blockSize : UInt64 := 0
  blockTransactions : UInt64 := 0
  pooledTransactions : UInt64 := 0
  difficulty : Float := 0
  searchInterval : UInt32 := 0
  weight : UInt64 := 0
  networkWeight : UInt64 := 0
  expectedTime : UInt64 := 0

namespace StakingInfo

def toJson (info : StakingInfo) : Json :=
  .object ([
    ("enabled", .bool info.enabled),
    ("staking", .bool info.staking),
    ("currentblocksize", .int info.blockSize.toNat),
    ("currentblocktx", .int info.blockTransactions.toNat),
    ("pooledtx", .int info.pooledTransactions.toNat),
    ("difficulty", .float info.difficulty),
    ("searchinterval", .int info.searchInterval.toNat),
    ("weight", .int info.weight.toNat),
    ("netstakeweight", .int info.networkWeight.toNat),
    ("expectedtime", .int info.expectedTime.toNat)] ++
    (info.errors.map fun errors => ("errors", Json.text errors)).toList)

/-- What a record says, and for the rest what a node that does not stake says. -/
def ofJson? (json : Json) : Option StakingInfo := do
  let initial : StakingInfo := {}
  let flag := fun name default => Json.orElse (json.field? name) default Json.bool?
  let word := fun name => Json.orElse (json.field? name) 0 Json.uint64?
  return {
    enabled := ← flag "enabled" initial.enabled
    staking := ← flag "staking" initial.staking
    errors := ← Json.orElse (json.field? "errors") initial.errors (Json.option? Json.text?)
    blockSize := ← word "currentblocksize"
    blockTransactions := ← word "currentblocktx"
    pooledTransactions := ← word "pooledtx"
    difficulty := ← Json.orElse (json.field? "difficulty") initial.difficulty Json.float?
    searchInterval := ← Json.orElse (json.field? "searchinterval") initial.searchInterval Json.uint32?
    weight := ← word "weight"
    networkWeight := ← word "netstakeweight"
    expectedTime := ← word "expectedtime" }

end StakingInfo
end Mintage
