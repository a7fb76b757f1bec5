import Mintage.Block.Record
import Mintage.Mining.Mempool
import Mintage.Mining.Metrics

/-! Templates, metrics and waiting transactions as JSON. -/

namespace Mintage

def MempoolEntry.ofJson (coinbaseAt : Nat → Option Hash256) (json : Json) : Except RecordError MempoolEntry := do
  return ⟨← Transaction.ofJson coinbaseAt (json.rawField "tx"), ← json.field "fee" 0⟩

instance : FromJson MempoolEntry := ⟨MempoolEntry.ofJson fun _ => none⟩

instance : ToJson MempoolEntry where
  toJson entry := .array [
    toJson entry.tx.txid, toJson entry.fee, toJson entry.tx.weight, toJson entry.tx.hasWitness]

instance : ToJson BlockTemplate where
  toJson template := .object [
    ("header", toJson template.block.header), ("height", toJson template.height), ("fees", toJson template.fees),
    ("txs", toJson (template.block.transactions.map Transaction.encode)),
    ("commitment", toJson template.commitment), ("total_fees", toJson template.totalFees),
    ("coinbase_value", toJson template.coinbaseValue), ("consistent", toJson template.isConsistent)]

instance : ToJson Metrics where
  toJson metrics := .object [
    ("blocks", toJson metrics.blocks), ("txs", toJson metrics.transactions), ("fees", toJson metrics.fees),
    ("size", toJson metrics.lastSize), ("weight", toJson metrics.lastWeight),
    ("last_txs", toJson metrics.lastTransactions), ("avg", toJson metrics.averageTransactions)]

end Mintage
