import Mintage.Node.Acceptance
import Mintage.Proofs.ChainAncestors
import Mintage.Proofs.CoinHistory

/-! A node in step with its chain: its blocks are those of the chain, and its coins are what these blocks leave behind
when they are executed from nothing. Whatever block the node is offered, it stays in step, because a block that passes
the check is then executed on the very coins that it was checked against. -/

namespace Mintage
open Sequencing

theorem Params.executeAll_concat_eq_ok_iff {params : Params} {blocks : List (Block × Nat)} {block : Block} {height : Nat}
    {view after : CoinView} :
    params.executeAll (blocks ++ [(block, height)]) view = .ok () after ↔
      ∃ between fees, params.executeAll blocks view = .ok () between ∧
        params.execute block height between = .ok fees after := by
  induction blocks generalizing view with
  | nil =>
    rw [List.nil_append, executeAll_cons_eq_ok_iff]
    constructor
    · rintro ⟨fees, _, executed, ⟨⟩⟩
      exact ⟨view, fees, rfl, executed⟩
    · rintro ⟨_, fees, ⟨⟩, executed⟩
      exact ⟨fees, after, executed, rfl⟩
  | cons first rest ih =>
    obtain ⟨older, below⟩ := first
    rw [List.cons_append, executeAll_cons_eq_ok_iff]
    simp only [ih, executeAll_cons_eq_ok_iff]
    constructor
    · rintro ⟨fees, next, executed, between, last, run, final⟩
      exact ⟨between, last, ⟨fees, next, executed, run⟩, final⟩
    · rintro ⟨between, last, ⟨fees, next, executed, run⟩, final⟩
      exact ⟨fees, next, executed, between, last, run, final⟩

namespace Node

/-- The block at each height has the header of the chain at that height, and executing them in order succeeds and leaves
the coins. -/
structure Follows (params : Params) (node : Node) (tip : HeaderChain) : Prop where
  found : node.tip = some tip
  size : node.blocks.size = tip.height + 1
  headers : ∀ height : Nat, (node.blocks[height]?).map Block.header = (tip.ancestor? height).map HeaderChain.header
  coins : params.executeAll (node.blocks.toList.tail.zipIdx 1) {} = .ok () node.coins

/-- A node in step with its chain knows headers under their own hashes, the tip among them. -/
structure InStep (config : NodeConfig) (node : Node) : Prop where
  checked : node.acceptance = .checked
  known : ∀ (hash : Hash256) (entry : KnownHeader), node.known[hash]? = some entry →
    entry.chain.hash = hash ∧ (config.trustsSide = true → entry.validated = true)
  follows : ∃ tip, Follows config.params node tip ∧ node.known[tip.hash]? = some ⟨tip, true⟩

/-- Nothing that a node knows of the chain or the pool has changed. -/
structure Quiet (before after : Node) : Prop where
  tip : after.tip = before.tip
  blocks : after.blocks = before.blocks
  known : after.known = before.known
  coins : after.coins = before.coins
  pool : after.pool = before.pool
  acceptance : after.acceptance = before.acceptance

theorem Quiet.refl (node : Node) : node.Quiet node :=
  ⟨rfl, rfl, rfl, rfl, rfl, rfl⟩

theorem Quiet.trans {before between after : Node} (first : before.Quiet between) (last : between.Quiet after) :
    before.Quiet after :=
  ⟨last.tip.trans first.tip, last.blocks.trans first.blocks, last.known.trans first.known, last.coins.trans first.coins,
    last.pool.trans first.pool, last.acceptance.trans first.acceptance⟩

variable {config : NodeConfig} {node after : Node} {tip parent : HeaderChain} {block : Block}

theorem InStep.frame (inStep : InStep config node) (tip : after.tip = node.tip) (blocks : after.blocks = node.blocks)
    (known : after.known = node.known) (coins : after.coins = node.coins)
    (acceptance : after.acceptance = node.acceptance) : InStep config after := by
  obtain ⟨checked, entries, current, ⟨found, size, headers, executed⟩, own⟩ := inStep
  refine ⟨acceptance.trans checked, known ▸ entries, current, ⟨tip.trans found, blocks ▸ size,
    blocks ▸ headers, ?_⟩, known ▸ own⟩
  rw [blocks, coins, executed]

theorem InStep.quiet (inStep : InStep config node) (quiet : node.Quiet after) : InStep config after :=
  inStep.frame quiet.tip quiet.blocks quiet.known quiet.coins quiet.acceptance

theorem InStep.own (inStep : InStep config node) (found : node.tip = some tip) :
    node.known[tip.hash]? = some ⟨tip, true⟩ := by
  obtain ⟨current, follows, own⟩ := inStep.follows
  obtain rfl := Option.some.inj (found.symm.trans follows.found)
  exact own

theorem known_recognise (node : Node) (chain : HeaderChain) (validated : Bool) (hash : Hash256) :
    (node.recognise chain validated).known[hash]? =
      if chain.hash = hash then some ⟨chain, validated⟩ else node.known[hash]? := by
  simp [recognise, Std.HashMap.getElem?_insert]

theorem forall_known_recognise {holds : Hash256 → KnownHeader → Prop} {chain : HeaderChain} {validated : Bool}
    (all : ∀ (hash : Hash256) (entry : KnownHeader), node.known[hash]? = some entry → holds hash entry)
    (added : holds chain.hash ⟨chain, validated⟩) (hash : Hash256) (entry : KnownHeader)
    (listed : (node.recognise chain validated).known[hash]? = some entry) : holds hash entry := by
  rw [known_recognise] at listed
  split at listed
  next same =>
    cases listed
    exact same ▸ added
  next => exact all hash entry listed

theorem inStep_start (config : NodeConfig) (clock : UInt32) (genesis : BlockHeader) :
    InStep config (.start clock (some genesis)) := by
  refine ⟨rfl, ?_, .genesis genesis, ⟨rfl, rfl, ?_, rfl⟩, ?_⟩
  · apply forall_known_recognise
    · intro hash entry listed
      simp at listed
    · exact ⟨rfl, fun _ => rfl⟩
  · intro height
    cases height with
    | zero => rfl
    | succ height => rfl
  · rw [start, known_recognise, if_pos rfl]

/-- All that can come of a block: an error, a header beside the chain, or a new tip. -/
inductive Accepted (config : NodeConfig) (node : Node) (tip : HeaderChain) (block : Block) :
    EStateM.Result RuleError Node Unit → Prop where
  | refused (cause : RuleError) {after : Node} (quiet : node.Quiet after) :
      Accepted config node tip block (.error cause after)
  | beside (parent : KnownHeader) {after : Node} (quiet : node.Quiet after)
      (known : node.known[block.header.previous]? = some parent) (off : block.header.previous ≠ tip.hash) :
      Accepted config node tip block (.ok () (after.recognise (.extend parent.chain block.header) config.trustsSide))
  | connected (fees : Amount) (coins : CoinView) {after : Node} (quiet : node.Quiet after)
      (on : block.header.previous = tip.hash)
      (executed : config.params.execute block (tip.height + 1) node.coins = .ok fees coins) :
      Accepted config node tip block
        (.ok () ({ after with coins, pool := after.pool.removeBlock block }.extendTip tip block))

theorem connect_of_validate (valid : config.params.validate node.coins maxBlockWeight block tip = .ok ()) :
    ∃ fees coins, config.params.execute block (tip.height + 1) node.coins = .ok fees coins ∧
      connect config tip block node =
        .ok () ({ node with coins, pool := node.pool.removeBlock block }.extendTip tip block) := by
  obtain ⟨-, -, fees, coins, executed⟩ := Params.validate_eq_ok_iff.mp valid
  refine ⟨fees, coins, executed, ?_⟩
  rw [connect, executed]

/-- On the tip there are two checks to pass. -/
theorem acceptChecked_of_on (found : node.tip = some tip) (own : node.known[tip.hash]? = some ⟨tip, true⟩)
    (on : block.header.previous = tip.hash) :
    acceptChecked config block node =
      (do
        ofExcept (config.params.checkWork block.header)
        ofExcept (config.params.validate node.coins maxBlockWeight block tip)
        connect config tip block) node := by
  rw [acceptChecked, run_get_bind, on, own]
  simp only [found, ne_eq, not_true_eq_false, if_false]

theorem acceptChecked_eq_ok_iff_of_on (found : node.tip = some tip)
    (own : node.known[tip.hash]? = some ⟨tip, true⟩) (on : block.header.previous = tip.hash) :
    (∃ after, acceptChecked config block node = .ok () after) ↔
      config.params.checkWork block.header = .ok () ∧
        config.params.validate node.coins maxBlockWeight block tip = .ok () := by
  rw [acceptChecked_of_on found own on]
  simp only [run_bind_eq_ok, run_ofExcept_eq_ok]
  constructor
  · rintro ⟨_, _, _, ⟨work, -⟩, _, _, ⟨valid, -⟩, -⟩
    exact ⟨work, valid⟩
  · rintro ⟨work, valid⟩
    obtain ⟨fees, coins, -, connects⟩ := connect_of_validate valid
    exact ⟨_, _, _, ⟨work, rfl⟩, _, _, ⟨valid, rfl⟩, connects⟩

theorem accepted_acceptChecked (inStep : InStep config node) (found : node.tip = some tip)
    (own : node.known[tip.hash]? = some ⟨tip, true⟩) (block : Block) :
    Accepted config node tip block (acceptChecked config block node) := by
  by_cases on : block.header.previous = tip.hash
  · rw [acceptChecked_of_on found own on]
    cases work : config.params.checkWork block.header with
    | error cause => exact .refused cause (.refl node)
    | ok _ =>
      cases valid : config.params.validate node.coins maxBlockWeight block tip with
      | error cause => exact .refused cause (.refl node)
      | ok _ =>
        obtain ⟨fees, coins, executed, connects⟩ := connect_of_validate valid
        change Accepted config node tip block (connect config tip block node)
        rw [connects]
        exact .connected fees coins (.refl node) on executed
  · rw [acceptChecked, run_get_bind]
    cases known : node.known[block.header.previous]? with
    | none => exact .refused .wrongParent (.refl node)
    | some parent =>
      have named : parent.chain.hash = block.header.previous := (inStep.known _ _ known).1
      cases work : config.params.checkWork block.header with
      | error cause => exact .refused cause (.refl node)
      | ok _ =>
        simp only [found, named]
        rw [if_pos on]
        exact .beside parent (.refl node) known on

theorem Accepted.mono {before : Node} {outcome : EStateM.Result RuleError Node Unit} (quiet : before.Quiet node)
    (accepted : Accepted config node tip block outcome) : Accepted config before tip block outcome := by
  cases accepted with
  | refused cause later => exact .refused cause (quiet.trans later)
  | beside parent later known off => exact .beside parent (quiet.trans later) (quiet.known ▸ known) off
  | connected fees coins later on executed =>
    exact .connected fees coins (quiet.trans later) on (quiet.coins ▸ executed)

theorem accept_of_checked (config : NodeConfig) (checked : node.acceptance = .checked) (block : Block) :
    accept config block node = acceptChecked config block
      { node with offered := node.offered.push (block.hash, witnessItems block), acceptance := .checked } := by
  rw [accept, run_modify_bind, run_get_bind, checked]

theorem accepted_accept (inStep : InStep config node) (found : node.tip = some tip)
    (own : node.known[tip.hash]? = some ⟨tip, true⟩) (block : Block) :
    Accepted config node tip block (accept config block node) := by
  let listed : Node :=
    { node with offered := node.offered.push (block.hash, witnessItems block), acceptance := .checked }
  have quiet : node.Quiet listed := ⟨rfl, rfl, rfl, rfl, rfl, inStep.checked.symm⟩
  rw [accept_of_checked config inStep.checked]
  exact (accepted_acceptChecked (inStep.quiet quiet) found own block).mono quiet

theorem Quiet.accepted {before : Node} (quiet : before.Quiet node) (inStep : InStep config before)
    (found : before.tip = some tip) (own : before.known[tip.hash]? = some ⟨tip, true⟩) (block : Block) :
    Accepted config before tip block (accept config block node) :=
  (accepted_accept (inStep.quiet quiet) (quiet.tip.trans found) (quiet.known ▸ own) block).mono quiet

theorem accept_eq_ok_iff_of_on (checked : node.acceptance = .checked) (found : node.tip = some tip)
    (own : node.known[tip.hash]? = some ⟨tip, true⟩) (on : block.header.previous = tip.hash) :
    (∃ after, accept config block node = .ok () after) ↔
      config.params.checkWork block.header = .ok () ∧
        config.params.validate node.coins maxBlockWeight block tip = .ok () := by
  rw [accept_of_checked config checked]
  exact acceptChecked_eq_ok_iff_of_on found own on

theorem InStep.beside (inStep : InStep config node) (found : node.tip = some tip) {header : BlockHeader}
    (fresh : (HeaderChain.extend parent header).hash ≠ tip.hash) :
    InStep config (node.recognise (.extend parent header) config.trustsSide) := by
  obtain ⟨checked, known, current, follows, own⟩ := inStep
  obtain rfl := Option.some.inj (found.symm.trans follows.found)
  refine ⟨checked, forall_known_recognise known ⟨rfl, id⟩, tip,
    ⟨follows.found, follows.size, follows.headers, follows.coins⟩, ?_⟩
  rw [known_recognise, if_neg fresh, own]

theorem Follows.connected {fees : Amount} {coins : CoinView} (follows : Follows config.params node tip)
    (executed : config.params.execute block (tip.height + 1) node.coins = .ok fees coins) (pool : Mempool) :
    Follows config.params ({ node with coins, pool }.extendTip tip block) (.extend tip block.header) := by
  obtain ⟨found, size, headers, run⟩ := follows
  have blocks : node.blocks.toList.length = tip.height + 1 := by rw [Array.length_toList, size]
  refine ⟨rfl, ?_, ?_, ?_⟩
  · change (node.blocks.push block).size = tip.height + 1 + 1
    rw [Array.size_push, size]
  · intro height
    change ((node.blocks.push block)[height]?).map Block.header = _
    rw [Array.getElem?_push, HeaderChain.ancestor?]
    split
    next top =>
      rw [if_neg (by omega), if_pos (by omega)]
      rfl
    next other =>
      by_cases below : height ≤ tip.height
      · rw [if_pos below, headers]
      · rw [if_neg below, if_neg (by omega), Array.getElem?_eq_none (by omega)]
        rfl
  · change config.params.executeAll ((node.blocks.push block).toList.tail.zipIdx 1) {} = .ok () coins
    have added : (node.blocks.push block).toList.tail.zipIdx 1 =
        node.blocks.toList.tail.zipIdx 1 ++ [(block, tip.height + 1)] := by
      have nonempty : node.blocks.toList ≠ [] := List.ne_nil_of_length_eq_add_one blocks
      rw [Array.toList_push, List.tail_append_of_ne_nil nonempty, List.zipIdx_append, List.length_tail, blocks,
        Nat.add_sub_cancel, Nat.add_comm 1, List.zipIdx_singleton]
    rw [added]
    exact Params.executeAll_concat_eq_ok_iff.mpr ⟨node.coins, fees, run, executed⟩

theorem InStep.connected {fees : Amount} {coins : CoinView} (inStep : InStep config node) (found : node.tip = some tip)
    (executed : config.params.execute block (tip.height + 1) node.coins = .ok fees coins) (pool : Mempool) :
    InStep config ({ node with coins, pool }.extendTip tip block) := by
  obtain ⟨checked, known, current, follows, own⟩ := inStep
  obtain rfl := Option.some.inj (found.symm.trans follows.found)
  refine ⟨checked, forall_known_recognise known ⟨rfl, fun _ => rfl⟩, .extend tip block.header,
    follows.connected executed pool, ?_⟩
  rw [extendTip, known_recognise, if_pos rfl]

/-- In step with its chain, on top of the blocks that there were before. -/
structure Advances (config : NodeConfig) (before after : Node) : Prop where
  inStep : InStep config after
  kept : before.blocks.toList <+: after.blocks.toList

theorem InStep.advances (inStep : InStep config after) (blocks : after.blocks = node.blocks) :
    Advances config node after :=
  ⟨inStep, blocks ▸ List.prefix_rfl⟩

theorem InStep.advances_of_quiet (inStep : InStep config node) (quiet : node.Quiet after) :
    Advances config node after :=
  (inStep.quiet quiet).advances quiet.blocks

theorem Advances.trans {before between after : Node} (first : Advances config before between)
    (last : Advances config between after) : Advances config before after :=
  ⟨last.inStep, first.kept.trans last.kept⟩

/-- A header beside the chain is harmless unless it goes by the name of the tip. -/
theorem Accepted.leaves {outcome : EStateM.Result RuleError Node Unit} (inStep : InStep config node)
    (found : node.tip = some tip) (fresh : block.header.previous ≠ tip.hash → block.hash ≠ tip.hash)
    (accepted : Accepted config node tip block outcome) : Leaves (Advances config node) outcome := by
  cases accepted with
  | refused cause quiet => exact .error (inStep.advances_of_quiet quiet)
  | beside parent quiet known off =>
    exact .ok (((inStep.quiet quiet).beside (quiet.tip.trans found) (fresh off)).advances quiet.blocks)
  | connected fees coins quiet on executed =>
    refine .ok ⟨(inStep.quiet quiet).connected (quiet.tip.trans found) (quiet.coins ▸ executed) _, ?_⟩
    rw [extendTip, recognise, quiet.blocks, Array.toList_push]
    exact List.prefix_append _ _

end Node
end Mintage
