import Mintage.Block

/-! Block templates: a block that lacks only its proof, and what a miner wants to know about it. -/

namespace Mintage

/-- The first fee stands for the coinbase and is what the others add up to, negated. -/
structure BlockTemplate where
  block : Block
  fees : List Amount
  commitment : Option Script
  height : Nat
deriving DecidableEq, Repr

namespace BlockTemplate

/-- The sum of the fees, wrapping around at sixty-four bits. -/
def totalFees (template : BlockTemplate) : Amount :=
  template.fees.tail.foldl (· + ·) 0

def coinbaseValue (template : BlockTemplate) : Amount :=
  (template.block.coinbase?.map Transaction.totalOutput).getD 0

def isConsistent (template : BlockTemplate) : Bool :=
  template.fees.length == template.block.transactions.length &&
    template.fees.head? == some (-template.totalFees)

end BlockTemplate

/-- The script of a coinbase at `height`; the last opcode keeps it at two bytes at least. -/
def coinbaseScript (height : Nat) : Script :=
  Script.pushInt height ++ [Script.opZero]

def coinbaseTransaction (height : Nat) (value : Amount) (payout : Script) : Transaction where
  inputs := [{ scriptSig := coinbaseScript height }]
  outputs := [⟨value, payout⟩]

/-- Empties the first output of the coinbase; staking pays through the coinstake. -/
def Block.clearCoinbase (block : Block) : Block :=
  block.modifyFirst fun tx =>
    if tx.isCoinbase then { tx with outputs := tx.outputs.modifyHead fun _ => .empty } else tx

end Mintage
