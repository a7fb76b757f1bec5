import Mathlib.Data.Option.Basic
import Mintage.Node.Mining
import Mintage.Proofs.ExecutionRules
import Mintage.Proofs.TemplateShape

/-! What the commitments of a template cover. The merkle root in the header leaves witnesses out, and the
witness commitment leaves the coinbase out, so neither notices the nonce that the coinbase is given later. -/

namespace Mintage

namespace Transaction

/-- The coinbase with the witness that it is given once the block is built. -/
def witnessed (tx : Transaction) (witness : List Bytes) : Transaction :=
  { tx with inputs := tx.inputs.map fun input => { input with witness } }

/-- A transaction is named by what it says without its witnesses. -/
theorem txid_witnessed (tx : Transaction) (witness : List Bytes) : (tx.witnessed witness).txid = tx.txid := by
  have input : ∀ input : TxInput, { input with witness }.encode = input.encode := fun _ => rfl
  simp only [txid, encodeWith, witnessed, CompactSize.encodeItems, Bool.false_and, Bool.false_eq_true, if_false,
    List.length_map, List.flatMap_map, input]

theorem isCoinbase_witnessed (tx : Transaction) (witness : List Bytes) :
    (tx.witnessed witness).isCoinbase = tx.isCoinbase := by
  unfold isCoinbase witnessed
  match tx.inputs with
  | [] => rfl
  | [_] => rfl
  | _ :: _ :: _ => rfl

end Transaction

namespace WitnessCommitment

variable {block after : Block} {script : Script} {active : Bool} {nonce : UInt64}

theorem isCommitment_output (block : Block) : isCommitment (output block).script = true := by
  simp [isCommitment, output, header, List.isPrefixOf]

theorem lastIndex?_append {α : Type} {wanted : α → Bool} (items : List α) {last : α} (found : wanted last = true) :
    lastIndex? wanted (items ++ [last]) = some items.length := by
  induction items with
  | nil => simp [lastIndex?, found]
  | cons item rest ih => simp [lastIndex?, ih]

/-- The commitment does not cover the first transaction. -/
theorem hash_of_cons {block other : Block} {first second : Transaction} {rest : List Transaction}
    (left : block.transactions = first :: rest) (right : other.transactions = second :: rest) (value : Bytes) :
    hash block value = hash other value := by
  simp only [hash, Block.computeWitnessRoot, left, right]

/-- The coinbase ends in an output without value that commits to the witnesses of the block. -/
structure Carries (block : Block) (script : Script) : Prop where
  last : ∃ coinbase, block.coinbase? = some coinbase ∧ index? block = some (coinbase.outputs.length - 1) ∧
    coinbase.outputs.getLast? = some ⟨0, script⟩
  script_eq : script = header ++ (hash block reserved).toBytes

theorem inject?_eq_some_iff :
    inject? active nonce block = some after ↔
      (index? block).isSome = true ∧ active = true ∧ ∃ coinbase rest, block.transactions = coinbase :: rest ∧
        coinbase.isCoinbase = true ∧ coinbase.hasWitness = false ∧
        after = { block with transactions := coinbase.witnessed [nonceItem nonce] :: rest } := by
  simp only [inject?, Option.bind_eq_bind, Option.bind_eq_some_iff, Option.guard_eq_some', Bool.and_eq_true,
    Block.coinbase?_eq_some_iff, Option.pure_def, Option.some.injEq]
  constructor
  · intro given
    obtain ⟨_, ⟨found, active⟩, coinbase, ⟨rest, listed, holds⟩, _, bare, same⟩ := given
    refine ⟨found, active, coinbase, rest, listed, holds, by simpa using bare, ?_⟩
    rw [← same, Block.modifyFirst, listed]
    rfl
  · intro parts
    obtain ⟨found, active, coinbase, rest, listed, holds, bare, same⟩ := parts
    refine ⟨(), ⟨found, active⟩, coinbase, ⟨rest, listed, holds⟩, (), by simpa using bare, ?_⟩
    rw [same, Block.modifyFirst, listed]
    rfl

/-- A witness for the coinbase leaves its outputs and all other transactions alone. -/
theorem Carries.witnessed {coinbase : Transaction} {rest : List Transaction} (carries : Carries block script)
    (listed : block.transactions = coinbase :: rest) (witness : List Bytes) :
    Carries { block with transactions := coinbase.witnessed witness :: rest } script := by
  obtain ⟨⟨first, found, index, last⟩, content⟩ := carries
  obtain ⟨_, same, holds⟩ := Block.coinbase?_eq_some_iff.mp found
  obtain ⟨rfl, rfl⟩ := List.cons.inj (listed.symm.trans same)
  refine ⟨⟨coinbase.witnessed witness, ?_, ?_, last⟩, ?_⟩
  · refine Block.coinbase?_eq_some_iff.mpr ⟨rest, rfl, ?_⟩
    rw [Transaction.isCoinbase_witnessed, holds]
  · rw [index?, listed] at index
    exact index
  · have same : hash block reserved = hash { block with transactions := coinbase.witnessed witness :: rest } reserved :=
      hash_of_cons listed rfl reserved
    rw [content, same]

/-- The block after its coinbase was offered a nonce, which it may have refused. -/
def offered (active : Bool) (nonce : UInt64) (block : Block) : Block :=
  (inject? active nonce block).getD block

/-- Offers a block on top of `previous` a nonce: whether the block takes it, and the block afterwards. Only a block with
a commitment asks whether witnesses are allowed. -/
def offer (params : Params) (previous : Option HeaderChain) (nonce : UInt64) (block : Block) :
    StateM DeploymentCache (Bool × Block) := do
  if (index? block).isNone then return (false, block)
  let active ← DeploymentCache.witnessEnabled params previous
  return ((inject? active nonce block).isSome, offered active nonce block)

theorem inject?_of_index? (none : index? block = none) (active : Bool) (nonce : UInt64) :
    inject? active nonce block = .none := by
  rw [inject?, none]
  rfl

theorem offer_of_index? {index : Nat} (found : index? block = some index) (params : Params)
    (previous : Option HeaderChain) (nonce : UInt64) (cache : DeploymentCache) :
    offer params previous nonce block cache =
      let (active, later) := DeploymentCache.witnessEnabled params previous cache
      (((inject? active nonce block).isSome, offered active nonce block), later) := by
  rw [offer, found]
  rfl

theorem offer_fst (params : Params) (previous : Option HeaderChain) (nonce : UInt64) (block : Block)
    (cache : DeploymentCache) :
    (offer params previous nonce block cache).1 =
      ((inject? (DeploymentCache.witnessEnabled params previous cache).1 nonce block).isSome,
        offered (DeploymentCache.witnessEnabled params previous cache).1 nonce block) := by
  cases found : index? block with
  | none =>
    rw [offer, found, offered, inject?_of_index? found]
    rfl
  | some index =>
    rw [offer_of_index? found]
    rfl

end WitnessCommitment

/-- The header commits to the transactions, and the coinbase to the witnesses where there is a commitment. -/
structure Block.Commits (block : Block) (commitment : Option Script) : Prop where
  merkleRoot_eq : block.header.merkleRoot = block.computeMerkleRoot
  carries : ∀ script, commitment = some script → WitnessCommitment.Carries block script

namespace WitnessCommitment

variable {block : Block} {commitment : Option Script}

theorem header_offered (active : Bool) (nonce : UInt64) (block : Block) :
    (offered active nonce block).header = block.header := by
  unfold offered
  cases given : inject? active nonce block with
  | none => rfl
  | some after =>
    obtain ⟨_, _, _, _, _, _, _, same⟩ := inject?_eq_some_iff.mp given
    rw [Option.getD_some, same]

theorem hash_offered (active : Bool) (nonce : UInt64) (block : Block) :
    (offered active nonce block).hash = block.hash := by
  rw [Block.hash, header_offered, Block.hash]

/-- The nonce goes where neither commitment looks. -/
theorem commits_offered (commits : block.Commits commitment) (active : Bool) (nonce : UInt64) :
    (offered active nonce block).Commits commitment := by
  unfold offered
  cases given : inject? active nonce block with
  | none => exact commits
  | some after =>
    obtain ⟨_, _, coinbase, rest, listed, _, _, same⟩ := inject?_eq_some_iff.mp given
    subst same
    constructor
    · have root := commits.merkleRoot_eq
      simp only [Block.computeMerkleRoot, listed, List.map_cons] at root
      simpa only [Option.getD_some, Block.computeMerkleRoot, List.map_cons, Transaction.txid_witnessed] using root
    · intro script chosen
      exact (commits.carries script chosen).witnessed listed [nonceItem nonce]

end WitnessCommitment

namespace Node

variable {config : NodeConfig} {parent : HeaderChain} {block : Block} {node : Node}

/-- A node offers each block the next of its nonces. -/
theorem finish_eq_offer (config : NodeConfig) (parent : HeaderChain) (block : Block) (node : Node) :
    finish config parent block node =
      let ((taken, after), cache) :=
        WitnessCommitment.offer config.params (some parent) (config.draw node.drawn) block node.cache
      (after, { node with cache, drawn := if taken then node.drawn + 1 else node.drawn }) := by
  cases found : WitnessCommitment.index? block with
  | none =>
    rw [finish, WitnessCommitment.offer, found]
    rfl
  | some index =>
    rw [finish, found, WitnessCommitment.offer_of_index? found]
    rcases answer : DeploymentCache.witnessEnabled config.params (some parent) node.cache with ⟨active, cache⟩
    cases given : WitnessCommitment.inject? active (config.draw node.drawn) block <;>
      simp [query, bind, StateT.bind, modifyGet, MonadStateOf.modifyGet, StateT.modifyGet, pure, answer, given,
        WitnessCommitment.offered]

theorem finish_eq_offered (config : NodeConfig) (parent : HeaderChain) (block : Block) (node : Node) :
    ∃ active, (finish config parent block node).1 =
      WitnessCommitment.offered active (config.draw node.drawn) block := by
  have outcome := WitnessCommitment.offer_fst config.params (some parent) (config.draw node.drawn) block node.cache
  rw [finish_eq_offer]
  exact ⟨_, congrArg Prod.snd outcome⟩

/-- Whatever a node adds to a block before it is mined, the block stays the one that was built. -/
theorem finish_commits {commitment : Option Script} (commits : block.Commits commitment) :
    (finish config parent block node).1.Commits commitment ∧ (finish config parent block node).1.hash = block.hash := by
  obtain ⟨active, same⟩ := finish_eq_offered config parent block node
  rw [same]
  exact ⟨WitnessCommitment.commits_offered commits _ _, WitnessCommitment.hash_offered _ _ _⟩

end Node

namespace Assembly

variable {assembly : Assembly} {version : Int32} {candidates : List MempoolEntry} {payout : Script}
  {built : BlockTemplate}

theorem carries_template {bits : UInt32} {script : Script}
    (promised : (assembly.template candidates payout version bits).commitment = some script) :
    WitnessCommitment.Carries (assembly.template candidates payout version bits).block script := by
  have root : WitnessCommitment.hash (assembly.draft candidates payout) WitnessCommitment.reserved =
      WitnessCommitment.hash (assembly.template candidates payout version bits).block WitnessCommitment.reserved :=
    WitnessCommitment.hash_of_cons rfl rfl WitnessCommitment.reserved
  cases witness : assembly.includeWitness with
  | false => simp [template, witness] at promised
  | true =>
    have outputs : (assembly.coinbase candidates payout).outputs =
        [assembly.payment candidates payout] ++ [WitnessCommitment.output (assembly.draft candidates payout)] := by
      simp only [coinbase, witness, if_true, List.singleton_append]
    simp only [template, witness, if_true, Option.some.injEq] at promised
    subst promised
    refine ⟨⟨assembly.coinbase candidates payout, Block.coinbase?_eq_some_iff.mpr ⟨_, rfl, rfl⟩, ?_, ?_⟩, ?_⟩
    · change WitnessCommitment.lastIndex? _ (assembly.coinbase candidates payout).outputs = _
      rw [outputs]
      exact WitnessCommitment.lastIndex?_append [_] (WitnessCommitment.isCommitment_output _)
    · rw [outputs, List.getLast?_concat]
      rfl
    · rw [← root]
      rfl

theorem build_commits (done : assembly.build version candidates payout = .ok built) :
    built.block.Commits built.commitment ∧
      ∀ active nonce, (WitnessCommitment.offered active nonce built.block).Commits built.commitment ∧
        (WitnessCommitment.offered active nonce built.block).hash = built.block.hash := by
  obtain ⟨bits, _, rfl, _, _⟩ := build_eq_ok_iff.mp done
  have commits : (assembly.template candidates payout version bits).block.Commits
      (assembly.template candidates payout version bits).commitment :=
    ⟨rfl, fun _ => carries_template⟩
  exact ⟨commits, fun active nonce =>
    ⟨WitnessCommitment.commits_offered commits active nonce, WitnessCommitment.hash_offered active nonce _⟩⟩

end Assembly

namespace Staked

/-- A transaction with a witness and a fee. -/
def entry : MempoolEntry where
  tx := { inputs := [{ previous := ⟨⟨1⟩, 0⟩, witness := [[1]] }], outputs := [⟨5, [0x51]⟩] }
  fee := 7

def assembly : Assembly where
  params := .regtest
  policy := {}
  tip := .genesis {}
  witnessActive := true
  options := none
  clock := 100
  stakeBits := fun _ => 0x1d00ffff
  validate := fun _ => .ok ()

theorem entry_is_committed :
    ∃ built script, assembly.build 7 [entry] [0x51] = .ok built ∧ built.commitment = some script ∧
      built.block.transactions.tail = [entry.tx] ∧ built.block.Commits built.commitment ∧
      ∀ active nonce, (WitnessCommitment.offered active nonce built.block).Commits built.commitment ∧
        (WitnessCommitment.offered active nonce built.block).hash = built.block.hash := by
  have mode : assembly.policy.mode ≠ .proofOfWork := by decide
  have done : assembly.build 7 [entry] [0x51] = .ok (assembly.template [entry] [0x51] 7 0x1d00ffff) :=
    Assembly.build_eq_ok_iff.mpr ⟨_, rfl, rfl, fun checked => absurd checked mode, rfl⟩
  exact ⟨_, _, done, rfl, rfl, Assembly.build_commits done⟩

end Staked
end Mintage
