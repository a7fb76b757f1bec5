import Mintage.Fault
import Mintage.HeaderChain
import Mintage.Mining.Assembly
import Mintage.Mining.Metrics
import Mintage.Rpc.Call
import Mintage.Rpc.HashRate
import Mintage.Rpc.Reply
import Mintage.ScriptFlags

/-! Answering calls of the mining interface. The node behind it is any state with the operations listed in
`RpcBackend`. -/

namespace Mintage

/-- A header that a node has heard of; its block is validated or not. -/
structure KnownHeader where
  chain : HeaderChain
  validated : Bool

structure Wallet where
  name : String
  password : String
  /-- Names of accounts, with the payout script of the next address in hexadecimal. -/
  accounts : List (String × Option String)
deriving DecidableEq, Repr

namespace Wallet

def find (wallets : List Wallet) (name : String) : Except WalletError Wallet :=
  match wallets.find? (·.name == name) with
  | some wallet => .ok wallet
  | none => .error (.notFound name)

def unusedScript (wallets : List Wallet) (name account : String) : Except WalletError Script := do
  let wallet ← find wallets name
  match (wallet.accounts.lookup account).join.map Hex.decode with
  | some (.ok script) => pure script
  | _ => throw (.noUnusedAddress account)

def checkPassword (wallets : List Wallet) (name password : String) : Except WalletError Unit := do
  let wallet ← find wallets name
  if wallet.password ≠ password then throw .invalidPassword

end Wallet

structure RpcBackend (σ : Type) where
  params : Params
  /-- The payout script of templates. -/
  payout : Option Script
  wallets : List Wallet
  tip : σ → Option HeaderChain
  known? : σ → Hash256 → Option KnownHeader
  metrics : σ → Metrics
  /-- Nothing on a node that cannot stake. -/
  staking : σ → Option StakingInfo
  startStaking : σ → σ
  flags : HeaderChain → StateM σ ScriptFlags
  /-- Fills in what a header does not cover, for a block on top of a chain. -/
  finish : HeaderChain → Block → StateM σ Block
  template : HeaderChain → Script → Option TemplateOptions → EStateM (Fault TemplateError) σ BlockTemplate
  accept : Block → EStateM RuleError σ Unit
  /-- Mines up to so many blocks. -/
  generate : Script → Nat → EStateM (Fault Empty) σ (List Hash256)

/-- Answering a call, which may change the node even if it fails. -/
abbrev RpcAction (σ : Type) := EStateM (Fault RpcError) σ

namespace RpcBackend

variable {σ : Type} (node : RpcBackend σ)

def fail {α : Type} (cause : RpcError) : RpcAction σ α :=
  throw (.because cause)

def blockTemplate (request : TemplateRequest) : RpcAction σ TemplateReply := do
  let some tip := node.tip (← get) | fail (.misc "Chain has no tip yet")
  let some payout := node.payout | fail (.ofTemplate .missingPayoutScript)
  let template ← (node.template tip payout none).adaptExcept (·.map .ofTemplate)
  let flags ← modifyGet (node.flags tip)
  return .ofTemplate template tip.hash flags.names (request.declares DeploymentId.segwit.name)

/-- A block that is known and validated is not looked at again; any other one is handed to the node. If that
rejects a block which it knew, the block counts as a duplicate. -/
def submitBlock (hex : String) : RpcAction σ Submission := do
  let .ok block := Block.decoder.runHex hex | fail (.deserialization "Block decode failed")
  if block.coinbase?.isNone then fail (.deserialization "Block does not start with a coinbase")
  let hash := block.hash
  let known := node.known? (← get) hash
  if known.any KnownHeader.validated then return .duplicate
  let block ← match node.known? (← get) block.header.previous with
    | some parent => modifyGet (node.finish parent.chain block)
    | none => pure block
  let accepted ← modifyGet fun state =>
    match node.accept block state with
    | .ok _ after => (Except.ok (), after)
    | .error cause after => (Except.error cause, after)
  let isTip := (node.tip (← get)).any (·.hash == hash)
  match known, accepted with
  | some _, .ok _ => return if isTip then .duplicate else .duplicateInconclusive
  | some _, .error _ => return .duplicate
  | none, .ok _ => return if isTip then .accepted else .inconclusive
  | none, .error cause => fail (.ofRule cause)

def hashRate (lookup height : Int) (state : σ) : Float :=
  networkHashRate (node.tip state) node.params.interval lookup height

def miningInfo (state : σ) : MiningInfo :=
  let height := ((node.tip state).map HeaderChain.height).getD 0
  let metrics := node.metrics state
  { blocks := height
    blockSize := metrics.lastSize
    blockWeight := metrics.lastWeight
    difficulty := ((node.tip state).map fun tip => Mintage.difficulty tip.header.bits).getD 0
    hashRate := node.hashRate (-1) height state
    chain := node.params.network }

/-- Mines to the first account of the first wallet. -/
def generateBlocks (count : Int) : RpcAction σ (List Hash256) := do
  if count ≤ 0 then fail (.invalidRequest "The number of blocks to mine must be higher than zero.")
  let some wallet := node.wallets.head? | fail (.invalidRequest "No wallet found")
  let some (account, _) := wallet.accounts.head? | fail (.invalidRequest "No account found on wallet")
  match Wallet.unusedScript node.wallets wallet.name account with
  | .error cause => fail (.ofWallet cause)
  | .ok script => (node.generate script count.toNat).adaptExcept (·.map Empty.elim)

def startStakingWith (wallet password : String) : RpcAction σ Bool := do
  if wallet.isEmpty then fail (.invalidParameter "walletName cannot be empty")
  if password.isEmpty then fail (.invalidParameter "walletPassword cannot be empty")
  if let .error cause := Wallet.checkPassword node.wallets wallet password then fail (.ofWallet cause)
  if (node.staking (← get)).isNone then fail (.misc "Staking is not enabled on this node")
  modify node.startStaking
  return true

def answer : RpcCall → RpcAction σ Json
  | .getBlockTemplate request => return (← node.blockTemplate request).toJson
  | .submitBlock hex => return (← node.submitBlock hex).toJson
  | .getMiningInfo => return (node.miningInfo (← get)).toJson
  | .getNetworkHashRate lookup height => return .float (node.hashRate lookup height (← get))
  | .generate count => return .array ((← node.generateBlocks count).map fun hash => .text hash.toHex)
  | .getStakingInfo json => do
    if !json then fail (.notImplemented "Binary getstakinginfo")
    return ((node.staking (← get)).getD {}).toJson
  | .startStaking wallet password => return .bool (← node.startStakingWith wallet password)
  | .prioritiseTransaction _ _ => return .bool false

def handle (method : String) (params : Option Json) : RpcAction σ Json :=
  match RpcCall.read method params with
  | .ok call => node.answer call
  | .error cause => fail cause

end RpcBackend
end Mintage
