import Mintage.Block
import Mintage.Transaction.Record

/-! Headers and blocks as JSON. -/

namespace Mintage

instance : FromJson BlockHeader where
  ofJson
    | .object fields => do
      let json := Json.object fields
      return {
        version := ← json.field "version" 0
        previous := ← json.field "prev" .zero
        merkleRoot := ← json.field "merkle" .zero
        time := ← json.field "time" 0
        bits := ← json.field "bits" 0
        nonce := ← json.field "nonce" 0 }
    | _ => .error .malformed

instance : FromJson Block where
  ofJson := Block.decoder.ofJson fun json => return {
    transactions := ← json.field "txs" []
    header := ← json.field "header" {} }

instance : ToJson BlockHeader where
  toJson header := .object [
    ("version", toJson header.version), ("prev", toJson header.previous), ("merkle", toJson header.merkleRoot),
    ("time", toJson header.time), ("bits", toJson header.bits), ("nonce", toJson header.nonce),
    ("hash", toJson header.hash)]

/-- A block and what is computed from it. -/
def Block.summary (block : Block) : List (String × Json) := [
  ("header", toJson block.header), ("txids", toJson (block.transactions.map Transaction.txid)),
  ("merkle", toJson block.computeMerkleRoot), ("witness_merkle", toJson block.computeWitnessRoot),
  ("base_size", toJson block.baseSize), ("total_size", toJson block.totalSize), ("weight", toJson block.weight),
  ("coinbase", toJson (block.coinbase?.map Transaction.txid)), ("hex", toJson block.encode),
  ("hash", toJson block.hash)]

end Mintage
