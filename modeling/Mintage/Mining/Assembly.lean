import Mintage.Deployment.Cache
import Mintage.Execution
import Mintage.Fault
import Mintage.Mining.Mempool
import Mintage.Mining.Policy
import Mintage.Mining.Template
import Mintage.WitnessCommitment

/-! Building a block template: transactions in mempool order as far as they fit, a coinbase for what
they leave, a commitment to their witnesses, and a header. Proof-of-work templates keep their reward
and are checked; the others are not. -/

namespace Mintage

structure TemplateOptions where
  proofOfStake : Bool := false
  mineWitness : Bool := true
deriving DecidableEq, Repr

def TemplateOptions.ofJson? (json : Json) : Option TemplateOptions := do
  let field ← json.record? ["is_proof_of_stake", "mine_witness_tx"]
  return { proofOfStake := ← (← field "is_proof_of_stake").bool?, mineWitness := ← (← field "mine_witness_tx").bool? }

/-- What a template is built from. -/
structure Assembly where
  params : Params
  policy : MinerPolicy
  tip : HeaderChain
  /-- Whether blocks on the tip may carry witnesses. -/
  witnessActive : Bool
  options : Option TemplateOptions
  clock : UInt32
  /-- The bits for a block that is not checked, staked or not. -/
  stakeBits : Bool → UInt32
  validate : Block → Except RuleError Unit

namespace Assembly

def height (assembly : Assembly) : Nat :=
  assembly.tip.height + 1

def includeWitness (assembly : Assembly) : Bool :=
  (assembly.options.getD {}).mineWitness && assembly.policy.mineWitness && assembly.witnessActive

/-- The candidates that go into a block which holds `weight` and `size` already and contains `taken`. One
that would reach a limit is passed over, and later ones may still fit. -/
def select (policy : MinerPolicy) (witness : Bool) (weight size : Nat) (taken : List Hash256) :
    List MempoolEntry → List MempoolEntry
  | [] => []
  | entry :: rest =>
    let txid := entry.tx.txid
    if entry.tx.isCoinbase || (!witness && entry.tx.hasWitness) || entry.fee < policy.minFee ||
        weight + entry.tx.weight ≥ policy.maxWeight || size + entry.tx.totalSize ≥ policy.maxSize ||
        taken.contains txid then
      select policy witness weight size taken rest
    else
      entry :: select policy witness (weight + entry.tx.weight) (size + entry.tx.totalSize) (txid :: taken) rest

def selected (assembly : Assembly) (candidates : List MempoolEntry) : List MempoolEntry :=
  select assembly.policy assembly.includeWitness reservedWeight reservedSize [] candidates

/-- The version of blocks that do not vote. -/
def plainVersion : Int32 := 7

/-- Only a hybrid chain votes, and only with blocks that are asked for by proof of work; no other block needs the
states of the deployments. -/
def version (assembly : Assembly) : StateM DeploymentCache Int32 :=
  match assembly.policy.mode, assembly.options with
  | .hybrid, some options =>
    if options.proofOfStake then pure plainVersion
    else DeploymentCache.blockVersion assembly.params (some assembly.tip)
  | _, _ => pure plainVersion

/-- One second after the median at least, and as late as the clock. -/
def time (assembly : Assembly) : UInt32 :=
  max (.ofNat (min (assembly.tip.medianTimePast + 1) (UInt32.size - 1))) assembly.clock

def bits? (assembly : Assembly) : Option UInt32 :=
  match assembly.policy.mode with
  | .proofOfWork => assembly.params.nextBits? (some assembly.tip) assembly.time
  | _ => some (assembly.stakeBits (assembly.options.getD {}).proofOfStake)

/-- The coinbase, which takes the subsidy and the fees, and the chosen transactions. -/
def body (assembly : Assembly) (fees : Amount) (chosen : List MempoolEntry) (payout : Script) : Block where
  transactions :=
    coinbaseTransaction assembly.height ((assembly.params.subsidy assembly.height).add fees) payout ::
      chosen.map MempoolEntry.tx

def finishCoinbase (assembly : Assembly) (block : Block) : Block :=
  match assembly.policy.mode with
  | .proofOfWork => block
  | _ => block.clearCoinbase

def finishHeader (assembly : Assembly) (version : Int32) (bits : UInt32) (block : Block) : Block :=
  Block.sealed { block with header := {
    version, previous := assembly.tip.hash, time := assembly.time, bits } }

/-- The block around the chosen transactions, and its commitment. -/
def committed (assembly : Assembly) (block : Block) : Block × Option Script :=
  if assembly.includeWitness then
    let output := WitnessCommitment.output block
    (block.modifyFirst fun tx => { tx with outputs := tx.outputs ++ [output] }, some output.script)
  else (block, none)

def build (assembly : Assembly) (version : Int32) (candidates : List MempoolEntry) (payout : Script) :
    Except (Fault TemplateError) BlockTemplate := do
  let chosen := assembly.selected candidates
  let fees := Amount.total (chosen.map MempoolEntry.fee)
  let (block, commitment) := assembly.committed (assembly.body fees chosen payout)
  let some bits := assembly.bits? | throw .overflow
  let block := assembly.finishHeader version bits (assembly.finishCoinbase block)
  if assembly.policy.mode = .proofOfWork then
    (assembly.validate block).mapError (.because ∘ .consensus)
  let template : BlockTemplate :=
    { block, fees := -fees :: chosen.map MempoolEntry.fee, commitment, height := assembly.height }
  if !template.isConsistent then throw (.because (.invalidTemplate "fee list does not match transactions"))
  return template

end Assembly

/-- How a proof-of-work template is checked. -/
inductive Validator where
  | accept
  | reject (cause : RuleError)
  | coins (maxWeight : Nat)
deriving DecidableEq, Repr

def Validator.check (params : Params) (view : CoinView) (tip : HeaderChain) (block : Block) :
    Validator → Except RuleError Unit
  | accept => .ok ()
  | reject cause => .error cause
  | coins maxWeight => params.validate view maxWeight block tip

end Mintage
