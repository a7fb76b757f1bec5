import Mintage.Block

/-! Transactions that wait for a block, in the order in which they came. -/

namespace Mintage

structure MempoolEntry where
  tx : Transaction
  fee : Amount
deriving DecidableEq, Repr

/-- The fee for a thousand units of weight. -/
def MempoolEntry.feeRate (entry : MempoolEntry) : Float :=
  entry.fee.toFloat * 1000 / (max entry.tx.weight 1).toFloat

structure Mempool where
  entries : List MempoolEntry := []
deriving DecidableEq, Repr

namespace Mempool

/-- A transaction that is there already is not added again. -/
def add? (pool : Mempool) (entry : MempoolEntry) : Option Mempool :=
  let txid := entry.tx.txid
  if pool.entries.any (·.tx.txid == txid) then none else some { entries := pool.entries ++ [entry] }

/-- Drops what a block contains. -/
def removeBlock (pool : Mempool) (block : Block) : Mempool :=
  let confirmed := block.transactions.map Transaction.txid
  { entries := pool.entries.filter fun entry => !confirmed.contains entry.tx.txid }

def size (pool : Mempool) : Nat :=
  pool.entries.length

end Mempool
end Mintage
