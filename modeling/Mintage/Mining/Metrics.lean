import Mintage.Mining.Template

/-! Counts of the templates that were built. -/

namespace Mintage

structure Metrics where
  blocks : UInt64 := 0
  transactions : UInt64 := 0
  fees : UInt64 := 0
  lastSize : UInt64 := 0
  lastWeight : UInt64 := 0
  lastTransactions : UInt64 := 0
deriving DecidableEq, Repr

namespace Metrics

/-- Totals wrap around; negative fees count as none. -/
def record (metrics : Metrics) (transactions size weight : Nat) (fees : Amount) : Metrics where
  blocks := metrics.blocks + 1
  transactions := metrics.transactions + .ofNat transactions
  fees := metrics.fees + .ofNat fees.toInt.toNat
  lastSize := .ofNat size
  lastWeight := .ofNat weight
  lastTransactions := .ofNat transactions

/-- Counts a template, its coinbase left out. -/
def recordTemplate (metrics : Metrics) (template : BlockTemplate) : Metrics :=
  metrics.record (template.block.transactions.length - 1) template.block.totalSize template.block.weight
    (Amount.total template.fees.tail)

def averageTransactions (metrics : Metrics) : Float :=
  if metrics.blocks = 0 then 0 else metrics.transactions.toFloat / metrics.blocks.toFloat

end Metrics
end Mintage
