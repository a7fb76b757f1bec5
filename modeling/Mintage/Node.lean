import Mintage.Rpc.Service

/-! A node: a chain with its blocks, the headers heard of, unspent outputs and waiting transactions. New
blocks come from outside or from its own miner. -/

namespace Mintage

/-- What a node does with a block that it is offered. -/
inductive Acceptance where
  /-- Checks it, and appends it if it extends the tip. -/
  | checked
  | reject (cause : RuleError)
  /-- Takes it without a look and forgets it. -/
  | keep
  /-- Appends it to the tip without a look. -/
  | append
deriving DecidableEq, Repr

/-- Checks of headers in search of one nonce, on a node that sets no other limit. -/
def Node.maxTries : Nat := 20000

structure NodeConfig where
  params : Params
  policy : MinerPolicy
  payout : Option Script
  powBits : UInt32
  posBits : UInt32
  validator : Validator
  wallets : List Wallet
  /-- The nonces drawn for coinbase witnesses. -/
  draw : Nat → UInt64
  tries : Nat := Node.maxTries
  /-- Whether a header beside the main chain counts as validated, so that its block is not looked at again. -/
  trustsSide : Bool := false

structure Node where
  clock : UInt32
  tip : Option HeaderChain := none
  blocks : Array Block := #[]
  known : Std.HashMap Hash256 KnownHeader := ∅
  coins : CoinView := {}
  pool : Mempool := {}
  /-- Why the pool cannot be read, if it cannot. -/
  poolDown : Option String := none
  metrics : Metrics := {}
  cache : DeploymentCache := {}
  staking : Option StakingInfo := none
  acceptance : Acceptance := .checked
  /-- The hashes of all blocks offered, with the items in the coinbase's witness. -/
  offered : Array (Hash256 × Option Nat) := #[]
  drawn : Nat := 0

namespace Node

def recognise (node : Node) (chain : HeaderChain) (validated : Bool) : Node :=
  { node with known := node.known.insert chain.hash ⟨chain, validated⟩ }

/-- A node that has a genesis block, which holds no transactions, and nothing else. -/
def start (clock : UInt32) (genesis : Option BlockHeader) : Node :=
  match genesis with
  | none => { clock }
  | some header =>
    let chain := HeaderChain.genesis header
    recognise { clock, tip := some chain, blocks := #[{ header }] } chain true

/-- Makes a block the new tip. -/
def extendTip (node : Node) (parent : HeaderChain) (block : Block) : Node :=
  let chain := HeaderChain.extend parent block.header
  recognise { node with tip := some chain, blocks := node.blocks.push block } chain true

/-- The number of witness items of the first input of the first transaction. -/
def witnessItems (block : Block) : Option Nat := do
  let first ← block.transactions.head?
  let input ← first.inputs.head?
  return input.witness.length

end Node
end Mintage
