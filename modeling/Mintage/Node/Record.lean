import Mintage.CoinView.Record
import Mintage.Mining.Record
import Mintage.Node
import Mintage.Node.Draft

/-! What a node is given and what it shows of itself, as JSON. -/

namespace Mintage

/-- An account is a pair of its name and its payout script, which may be null. -/
def Wallet.accountOfJson : Json → Except RecordError (String × Option String)
  | .array [name, .null] => return (← FromJson.ofJson name, none)
  | .array [name, script] => return (← FromJson.ofJson name, some (← FromJson.ofJson script))
  | _ => .error .malformed

instance : FromJson Wallet where
  ofJson json := return {
    name := ← json.required String "name"
    password := ← json.required String "password"
    accounts := ← json.listField Wallet.accountOfJson "accounts" }

/-- The changes that an object lists. The header before the block is named by its hash, or by its height on the
chain of `tip`. -/
def Draft.ofJson (coinbaseAt : Nat → Option Hash256) (tip : HeaderChain) (json : Json) : Except RecordError Draft := do
  let draft : Draft := {
    dropFirst := ← json.field "drop_coinbase" false
    addValue := ← json.optional Amount "value_add"
    scriptSig := ← json.optional Bytes "script_sig"
    witness := ← json.optional Bytes "witness"
    appended := ← json.listField (Transaction.ofJson coinbaseAt) "txs" }
  let height ← json.optional Nat "prev_height"
  let ancestor ← height.mapM fun height => Json.wellFormed (tip.ancestor? height)
  return { draft with
    previous := (← json.optional Hash256 "prev") <|> ancestor.map HeaderChain.hash
    version := ← json.optional Int32 "version"
    time := ← json.optional UInt32 "time"
    bits := ← json.optional UInt32 "bits" }

namespace Node

/-- The identifier of the first transaction of the block at some height. -/
def coinbaseAt (node : Node) (height : Nat) : Option Hash256 := do
  return (← (← node.blocks[height]?).transactions.head?).txid

/-- The fields that tell how far a node has come. -/
def status (node : Node) : List (String × Json) := [
  ("height", toJson (node.tip.map HeaderChain.height)), ("tip", toJson (node.tip.map HeaderChain.hash)),
  ("coins", toJson node.coins.size), ("pool", toJson node.pool.size)]

/-- What a node has counted and been offered. -/
def history (node : Node) : Json :=
  .object [
    ("metrics", toJson node.metrics), ("known", toJson node.known.size), ("seen", toJson node.offered.toList)]

end Node
end Mintage
