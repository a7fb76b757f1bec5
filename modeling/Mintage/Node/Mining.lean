import Mintage.Node.Acceptance

/-! A node's templates and its own miner. -/

namespace Mintage.Node

/-- Asks the deployment cache. -/
def query {α : Type} (run : StateM DeploymentCache α) : StateM Node α := fun node =>
  let (value, cache) := run node.cache
  (value, { node with cache })

/-- Gives the coinbase of a block on top of `parent` its witness nonce, where it wants one. Only a block with a
commitment asks whether witnesses are allowed. -/
def finish (config : NodeConfig) (parent : HeaderChain) (block : Block) : StateM Node Block := do
  if (WitnessCommitment.index? block).isNone then return block
  let active ← query (DeploymentCache.witnessEnabled config.params (some parent))
  modifyGet fun node =>
    match WitnessCommitment.inject? active (config.draw node.drawn) block with
    | some block => (block, { node with drawn := node.drawn + 1 })
    | none => (block, node)

def candidates (node : Node) : Except TemplateError (List MempoolEntry) :=
  match node.poolDown with
  | some why => .error (.mempoolUnavailable why)
  | none => .ok node.pool.entries

def assembly (config : NodeConfig) (node : Node) (tip : HeaderChain) (options : Option TemplateOptions)
    (witnessActive : Bool) : Assembly where
  params := config.params
  policy := config.policy
  tip
  witnessActive
  options
  clock := node.clock
  stakeBits := fun staked => if staked then config.posBits else config.powBits
  validate := fun block => config.validator.check config.params node.coins tip block

def template (config : NodeConfig) (tip : HeaderChain) (payout : Script) (options : Option TemplateOptions) :
    EStateM (Fault TemplateError) Node BlockTemplate := do
  let active ← modifyGet (query (DeploymentCache.witnessEnabled config.params (some tip)))
  let node ← get
  let candidates ← ofExcept (node.candidates.mapError .because)
  let assembly := assembly config node tip options active
  let version ← modifyGet (query assembly.version)
  let template ← ofExcept (assembly.build version candidates payout)
  modify fun node => { node with metrics := node.metrics.recordTemplate template }
  return template

inductive MiningError where
  | noTip
  | template (cause : TemplateError)
  | unsolved
  | rejected (cause : RuleError)
deriving DecidableEq, Repr

/-- Builds a block on the tip, solves it and offers it to the node itself. -/
def mineOne (config : NodeConfig) (payout : Script) (options : Option TemplateOptions) :
    EStateM (Fault MiningError) Node Hash256 := do
  let some tip := (← get).tip | throw (.because .noTip)
  let template ← (template config tip payout options).adaptExcept (·.map .template)
  let block ← modifyGet (finish config tip template.block)
  let (block, solved) := config.params.solve true config.tries block
  if !solved then throw (.because .unsolved)
  (accept config block).adaptExcept (.because ∘ .rejected)
  return block.hash

/-- So many blocks, up to the first that fails. -/
def mine (config : NodeConfig) (payout : Script) (options : Option TemplateOptions) :
    (count : Nat) → EStateM (Fault MiningError) Node (List Hash256)
  | 0 => pure []
  | count + 1 => do
    let hash ← mineOne config payout options
    return hash :: (← mine config payout options count)

/-- The same, but what was mined before a failure counts. -/
def generate (config : NodeConfig) (payout : Script) : (count : Nat) → EStateM (Fault Empty) Node (List Hash256)
  | 0 => pure []
  | count + 1 => fun node =>
    match mineOne config payout (some {}) node with
    | .error .overflow node => .error .overflow node
    | .error (.because _) node => .ok [] node
    | .ok hash node => (List.cons hash <$> generate config payout count) node

end Mintage.Node
