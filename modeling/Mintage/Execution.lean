import Mintage.CoinView
import Mintage.HeaderChain
import Mintage.Work

/-! Running blocks against a coin view. A transaction that breaks a rule leaves the view alone; a block
that does leaves what its earlier transactions did, so callers run it on a copy. -/

namespace Mintage

/-- Each value, and their sum on top of `total`, lies in the range of money. -/
def checkValues : List TxOutput → (total : Amount) → Except RuleError Unit
  | [], _ => pure ()
  | output :: rest, total => do
    if output.value < 0 then throw .negativeOutput
    if output.value > Amount.maxMoney then throw .outputTooLarge
    if !(total + output.value).inRange then throw .outputTotalTooLarge
    checkValues rest (total + output.value)

def Transaction.checkOutputs (tx : Transaction) : Except RuleError Unit :=
  checkValues tx.outputs 0

/-- One coinbase, which comes first, with a script of two to a hundred bytes. -/
def Block.checkStructure (block : Block) : Except RuleError Unit := do
  let some coinbase := block.coinbase? | throw .coinbaseMissing
  if block.transactions.tail.any Transaction.isCoinbase then throw .coinbaseRepeated
  let length := (coinbase.inputs.head?.map fun input => input.scriptSig.length).getD 0
  if length < 2 || length > 100 then throw (.coinbaseLength length)

/-- A run over a coin view that may break a rule. -/
abbrev Execution := EStateM RuleError CoinView

namespace Params

def checkMaturity (params : Params) (coins : Coins) (height : Nat) : Except RuleError Unit :=
  if coins.height + params.maturity ≤ height then pure ()
  else if coins.coinbase then throw (.immatureCoinbase coins.height height)
  else if coins.coinstake then throw (.immatureCoinstake coins.height height)
  else pure ()

/-- The value of the inputs on top of `total`, each looked up in the same view. -/
def inputTotal (params : Params) (view : CoinView) (height : Nat) :
    List TxInput → (total : Amount) → Except RuleError Amount
  | [], total => pure total
  | input :: rest, total => do
    let some coins := view.get? input.previous.txid | throw (.missingInput input.previous.txid)
    params.checkMaturity coins height
    let some output := coins.output? input.previous.index.toNat | throw (.missingInput input.previous.txid)
    if output.value.inRange && (total + output.value).inRange then
      inputTotal params view height rest (total + output.value)
    else throw .inputOutOfRange

/-- The fee of a transaction that keeps every rule. Coinbases pay none, nor do coinstakes, whose outputs
may exceed their inputs. -/
def fee (params : Params) (view : CoinView) (tx : Transaction) (height : Nat) : Except RuleError Amount := do
  tx.checkOutputs
  if tx.isCoinbase then return 0
  let inputs ← params.inputTotal view height tx.inputs 0
  if tx.isCoinstake then return 0
  if inputs < tx.totalOutput then throw (.outputsExceedInputs inputs tx.totalOutput)
  return inputs - tx.totalOutput

def apply (params : Params) (tx : Transaction) (height : Nat) : Execution Amount := fun view =>
  match params.fee view tx height with
  | .error broken => .error broken view
  | .ok fee => .ok fee (view.update tx height)

/-- Applies transactions in order and adds their fees up. -/
def applyAll (params : Params) (height : Nat) : List Transaction → (fees : Amount) → Execution Amount
  | [], fees => pure fees
  | tx :: rest, fees => do
    let fee ← params.apply tx height
    applyAll params height rest (fees.add fee)

/-- The coinbase may pay out the fees and the subsidy, and no more. -/
def checkReward (params : Params) (fees : Amount) (height : Nat) (block : Block) : Except RuleError Unit := do
  let some coinbase := block.coinbase? | throw .coinbaseMissing
  coinbase.checkOutputs
  let allowed := fees.add (params.subsidy height)
  if coinbase.totalOutput > allowed then throw (.coinbaseAmount coinbase.totalOutput allowed)

/-- Runs a block and returns its fees. -/
def execute (params : Params) (block : Block) (height : Nat) : Execution Amount := do
  ofExcept block.checkStructure
  let fees ← params.applyAll height block.transactions 0
  ofExcept (params.checkReward fees height block)
  return fees

/-- Checks a block on top of `parent` without touching the view. -/
def validate (params : Params) (view : CoinView) (maxWeight : Nat) (block : Block) (parent : HeaderChain) :
    Except RuleError Unit := do
  if block.header.previous ≠ parent.hash then throw .wrongParent
  if block.weight > maxWeight then throw (.blockWeight block.weight maxWeight)
  match params.execute block (parent.height + 1) view with
  | .ok _ _ => pure ()
  | .error broken _ => throw broken

end Params
end Mintage
