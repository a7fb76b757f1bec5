import Mintage.CoinView
import Mintage.Transaction.Record

/-! Unspent outputs as JSON. -/

namespace Mintage

/-- The coins of one transaction; null stands for a spent output. -/
instance : ToJson (Hash256 × Coins) where
  toJson := fun (txid, coins) => .object [
    ("txid", toJson txid), ("height", toJson coins.height), ("coinbase", toJson coins.coinbase),
    ("coinstake", toJson coins.coinstake), ("outputs", toJson coins.outputs), ("spent", toJson coins.isSpent)]

/-- Adds the coins of a transaction at a height. -/
def CoinView.insertJson (coinbaseAt : Nat → Option Hash256) (view : CoinView) (json : Json) :
    Except RecordError CoinView := do
  return view.insert (← Transaction.ofJson coinbaseAt (json.rawField "tx")) (← json.field "height" 0)

/-- The coins of some transactions, each at its height. -/
instance : FromJson CoinView where
  ofJson json := do (← FromJson.ofJson json : List Json).foldlM (CoinView.insertJson fun _ => none) {}

end Mintage
