import Mintage.Node.Event
import Mintage.Proofs.Submissions
import Mintage.Proofs.TemplateVotes
import Mintage.Proofs.WitnessCommitments

/-! Nodes over whole histories of events. Calls that only ask leave the chain alone, mining extends it, and a submission
ends in one of five ways, of which all but the acceptance of a new tip leave it alone as well. Nothing takes a block away
from the chain again. -/

namespace Mintage
open Sequencing

theorem Params.previous_solve (params : Params) (wanted : Bool) (tries : Nat) (block : Block) :
    (params.solve wanted tries block).1.header.previous = block.header.previous := by
  induction tries generalizing block with
  | zero => rfl
  | succ tries ih =>
    rw [solve]
    split
    next => rfl
    next => rw [ih]

namespace Node

variable {config : NodeConfig} {node after : Node} {tip : HeaderChain} {block : Block} {hex : String}

theorem quiet_query {α : Type} (run : StateM DeploymentCache α) (node : Node) : node.Quiet (query run node).2 :=
  ⟨rfl, rfl, rfl, rfl, rfl, rfl⟩

theorem quiet_finish (config : NodeConfig) (parent : HeaderChain) (block : Block) (node : Node) :
    node.Quiet (finish config parent block node).2 := by
  rw [finish_eq_offer]
  exact ⟨rfl, rfl, rfl, rfl, rfl, rfl⟩

theorem header_finish (config : NodeConfig) (parent : HeaderChain) (block : Block) (node : Node) :
    (finish config parent block node).1.header = block.header := by
  obtain ⟨active, same⟩ := finish_eq_offered config parent block node
  rw [same, WitnessCommitment.header_offered]

theorem header_finished (config : NodeConfig) (node : Node) (block : Block) :
    ((backend config).finished node block).1.header = block.header := by
  unfold RpcBackend.finished
  split
  next parent _ => exact header_finish config parent.chain block node
  next => rfl

theorem quiet_finished (config : NodeConfig) (node : Node) (block : Block) :
    node.Quiet ((backend config).finished node block).2 := by
  unfold RpcBackend.finished
  split
  next parent _ => exact quiet_finish config parent.chain block node
  next => exact .refl node

theorem leaves_template (tip : HeaderChain) (payout : Script) (options : Option TemplateOptions) :
    Leaves node.Quiet (template config tip payout options node) := by
  rw [template, run_modifyGet_bind, run_get_bind]
  refine Leaves.bind (leaves_ofExcept _ (quiet_query _ node)) fun candidates first _ listed => ?_
  rw [run_modifyGet_bind]
  refine Leaves.bind (leaves_ofExcept _ (listed.trans (quiet_query _ first))) fun built second _ done => ?_
  exact .ok (done.trans ⟨rfl, rfl, rfl, rfl, rfl, rfl⟩)

theorem leaves_blockTemplate (request : TemplateRequest) :
    Leaves node.Quiet ((backend config).blockTemplate request node) := by
  rw [RpcBackend.blockTemplate, run_get_bind]
  cases (backend config).tip node with
  | none => exact .error (.refl node)
  | some tip =>
    cases (backend config).payout with
    | none => exact .error (.refl node)
    | some payout =>
      refine Leaves.bind ((leaves_template tip payout none).adaptExcept _) fun built after _ quiet => ?_
      exact .ok (quiet.trans (quiet_query _ after))

theorem accepted_handOver (inStep : InStep config node) (found : node.tip = some tip) (block : Block) :
    Accepted config node tip ((backend config).finished node block).1 ((backend config).handOver node block) :=
  (quiet_finished config node block).accepted inStep found (inStep.own found) _

/-- A submission that does not end at once is answered by what becomes of the block. -/
theorem submitBlock_cases (config : NodeConfig) (node : Node) (hex : String) :
    Leaves (· = node) ((backend config).submitBlock hex node) ∨
    ∃ block, (node.known[block.hash]?).any KnownHeader.validated = false ∧
      (backend config).submitBlock hex node =
        (backend config).settle node.known[block.hash]? block.hash ((backend config).handOver node block) := by
  by_cases readable : ∃ block, RpcBackend.Reads hex block
  · obtain ⟨block, reads⟩ := readable
    cases old : (backend config).validated node block with
    | true =>
      rw [RpcBackend.submitBlock_of_validated reads old]
      exact .inl (.ok rfl)
    | false => exact .inr ⟨block, old, RpcBackend.submitBlock_of_fresh reads old⟩
  · obtain ⟨message, failed⟩ := (backend config).submitBlock_of_not_reads node (not_exists.mp readable)
    rw [failed]
    exact .inl (.error rfl)

theorem leaves_settle {holds : Node → Prop} {known : Option KnownHeader} {hash : Hash256}
    {outcome : EStateM.Result RuleError Node Unit} (leaves : Leaves holds outcome) :
    Leaves holds ((backend config).settle known hash outcome) := by
  cases leaves with
  | ok kept => cases known <;> exact .ok kept
  | error kept =>
    cases known with
    | none => exact .error kept
    | some _ => exact .ok kept

theorem hash_ne_tip (own : node.known[tip.hash]? = some ⟨tip, true⟩) {hash : Hash256}
    (fresh : (node.known[hash]?).any KnownHeader.validated = false) : hash ≠ tip.hash := by
  intro same
  rw [same, own, Option.any_some] at fresh
  cases fresh

theorem leaves_submitBlock (inStep : InStep config node) (hex : String) :
    Leaves (Advances config node) ((backend config).submitBlock hex node) := by
  obtain same | ⟨block, fresh, answered⟩ := submitBlock_cases config node hex
  · exact same.mono fun _ same => same ▸ inStep.advances rfl
  · rw [answered]
    obtain ⟨tip, follows, own⟩ := inStep.follows
    refine leaves_settle ((accepted_handOver inStep follows.found block).leaves inStep follows.found fun _ => ?_)
    rw [Block.hash, header_finished]
    exact hash_ne_tip own fresh

/-- The chain, the blocks, the coins and the pool are as they were. -/
structure Unchanged (before after : Node) : Prop where
  tip : after.tip = before.tip
  blocks : after.blocks = before.blocks
  coins : after.coins = before.coins
  pool : after.pool = before.pool

theorem Quiet.unchanged {before after : Node} (quiet : before.Quiet after) : before.Unchanged after :=
  ⟨quiet.tip, quiet.blocks, quiet.coins, quiet.pool⟩

theorem isTip_extend (config : NodeConfig) (node : Node) (parent : HeaderChain) (block : Block) :
    (some (HeaderChain.extend parent ((backend config).finished node block).1.header)).any (·.hash == block.hash) =
      true := by
  have named : (HeaderChain.extend parent ((backend config).finished node block).1.header).hash = block.hash := by
    rw [header_finished]
    rfl
  rw [Option.any_some, named, beq_self_eq_true]

/-- Where every known header counts as validated, only a block that becomes the tip is accepted in silence, and no other
changes anything. -/
theorem submitBlock_accepts_or_unchanged (trusts : config.trustsSide = true) (inStep : InStep config node)
    (hex : String) :
    (∃ after, (backend config).submitBlock hex node = .ok .accepted after) ∨
      Leaves node.Unchanged ((backend config).submitBlock hex node) := by
  obtain same | ⟨block, fresh, answered⟩ := submitBlock_cases config node hex
  · exact .inr (same.mono fun _ same => same ▸ (Quiet.refl node).unchanged)
  · obtain ⟨tip, follows, -⟩ := inStep.follows
    have outcome := accepted_handOver inStep follows.found block
    have unknown : node.known[block.hash]? = none := by
      cases entry : node.known[block.hash]? with
      | none => rfl
      | some known =>
        have validated := (inStep.known _ _ entry).2 trusts
        rw [entry, Option.any_some, validated] at fresh
        cases fresh
    rw [answered, unknown]
    generalize (backend config).handOver node block = result at outcome ⊢
    cases outcome with
    | refused cause later => exact .inr (.error later.unchanged)
    | beside parent later known off =>
      exact .inr (.ok ⟨later.tip, later.blocks, later.coins, later.pool⟩)
    | connected fees coins later on executed =>
      refine .inl ⟨_, ((backend config).settle_eq_accepted_iff).mpr ⟨rfl, rfl, ?_⟩⟩
      exact isTip_extend config node tip block

/-- A block that is new, sits on the tip, has its work and, once it is finished, is valid. -/
structure Joins (config : NodeConfig) (node : Node) (tip : HeaderChain) (block : Block) : Prop where
  fresh : node.known[block.hash]? = none
  on : block.header.previous = tip.hash
  worked : config.params.checkWork block.header = .ok ()
  valid : config.params.validate node.coins maxBlockWeight ((backend config).finished node block).1 tip = .ok ()

theorem handOver_eq_ok_iff_of_on (inStep : InStep config node) (found : node.tip = some tip)
    (on : block.header.previous = tip.hash) :
    (∃ after, (backend config).handOver node block = .ok () after) ↔
      config.params.checkWork block.header = .ok () ∧
        config.params.validate node.coins maxBlockWeight ((backend config).finished node block).1 tip = .ok () := by
  have quiet := quiet_finished config node block
  have header := header_finished config node block
  rw [← header] at on
  rw [← header, ← quiet.coins]
  exact accept_eq_ok_iff_of_on (quiet.acceptance.trans inStep.checked) (quiet.tip.trans found)
    (quiet.known ▸ inStep.own found) on

/-- What is accepted as the new tip joins the chain, since a header beside the chain leaves the tip as it was. -/
theorem joins_of_accepted (inStep : InStep config node) (found : node.tip = some tip)
    (reads : RpcBackend.Reads hex block) (accepted : (backend config).submitBlock hex node = .ok .accepted after) :
    Joins config node tip block ∧ after.blocks = node.blocks.push ((backend config).finished node block).1 := by
  cases old : (backend config).validated node block with
  | true =>
    rw [RpcBackend.submitBlock_of_validated reads old] at accepted
    cases accepted
  | false =>
    rw [RpcBackend.submitBlock_of_fresh reads old] at accepted
    obtain ⟨fresh, taken, isTip⟩ := ((backend config).settle_eq_accepted_iff).mp accepted
    have outcome := accepted_handOver inStep found block
    rw [taken] at outcome
    cases outcome with
    | @beside parent later quiet known off =>
      change later.tip.any (·.hash == block.hash) = true at isTip
      rw [quiet.tip, found, Option.any_some, beq_iff_eq] at isTip
      have own := (inStep.own found).symm.trans (isTip ▸ fresh)
      cases own
    | connected fees coins quiet on executed =>
      rw [header_finished] at on
      obtain ⟨worked, valid⟩ := (handOver_eq_ok_iff_of_on inStep found on).mp ⟨_, taken⟩
      refine ⟨⟨fresh, on, worked, valid⟩, ?_⟩
      rw [extendTip, recognise, quiet.blocks]

theorem accepted_of_joins (inStep : InStep config node) (found : node.tip = some tip)
    (reads : RpcBackend.Reads hex block) (joins : Joins config node tip block) :
    ∃ after, (backend config).submitBlock hex node = .ok .accepted after := by
  have unknown : (backend config).known? node block.hash = none := joins.fresh
  have old : (backend config).validated node block = false := by
    rw [RpcBackend.validated, unknown, Option.any_none]
  obtain ⟨after, taken⟩ := (handOver_eq_ok_iff_of_on inStep found joins.on).mpr ⟨joins.worked, joins.valid⟩
  have outcome := accepted_handOver inStep found block
  rw [taken] at outcome
  refine ⟨after, ?_⟩
  rw [RpcBackend.submitBlock_of_fresh reads old, unknown, taken]
  refine ((backend config).settle_eq_accepted_iff).mpr ⟨rfl, rfl, ?_⟩
  cases outcome with
  | beside parent quiet known off =>
    rw [header_finished] at off
    exact absurd joins.on off
  | connected fees coins quiet on executed => exact isTip_extend config node tip block

/-- The blocks that are taken without a word are exactly those that join the chain. -/
theorem submitBlock_accepts_iff_joins (inStep : InStep config node) (found : node.tip = some tip) :
    (∃ after, (backend config).submitBlock hex node = .ok .accepted after) ↔
      ∃ block, RpcBackend.Reads hex block ∧ Joins config node tip block := by
  constructor
  · rintro ⟨after, accepted⟩
    by_cases readable : ∃ block, RpcBackend.Reads hex block
    · obtain ⟨block, reads⟩ := readable
      exact ⟨block, reads, (joins_of_accepted inStep found reads accepted).1⟩
    · obtain ⟨message, failed⟩ := (backend config).submitBlock_of_not_reads node (not_exists.mp readable)
      cases failed.symm.trans accepted
  · rintro ⟨block, reads, joins⟩
    exact accepted_of_joins inStep found reads joins

theorem previous_of_template {payout : Script} {options : Option TemplateOptions} {built : BlockTemplate} {after : Node}
    (done : template config tip payout options node = .ok built after) : built.block.header.previous = tip.hash := by
  obtain ⟨_, _, drafted, _⟩ := template_eq_ok_iff.mp done
  obtain ⟨_, _, rfl, _⟩ := Assembly.build_eq_ok_iff.mp drafted
  rfl

theorem leaves_mineOne (inStep : InStep config node) (payout : Script) (options : Option TemplateOptions) :
    Leaves (Advances config node) (mineOne config payout options node) := by
  obtain ⟨tip, follows, own⟩ := inStep.follows
  have built : Leaves node.Quiet (template config tip payout options node) := leaves_template tip payout options
  rw [mineOne, run_get_bind, follows.found]
  refine Leaves.bind ((built.mono fun _ => inStep.advances_of_quiet).adaptExcept _) fun made between run _ => ?_
  have done := run_adaptExcept_eq_ok.mp run
  rw [done] at built
  obtain ⟨asked⟩ := built
  have quiet : node.Quiet (finish config tip made.block between).2 := asked.trans (quiet_finish _ _ _ _)
  have previous : (config.params.solve true config.tries (finish config tip made.block between).1).1.header.previous =
      tip.hash := by
    rw [Params.previous_solve, header_finish, previous_of_template done]
  rw [run_modifyGet_bind]
  -- All that matters of the block that the search ends with is that it is on the tip.
  generalize finish config tip made.block between = finished at quiet previous
  generalize config.params.solve true config.tries finished.1 = searched at previous ⊢
  obtain ⟨mined, solved⟩ := searched
  cases solved with
  | false => exact .error (inStep.advances_of_quiet quiet)
  | true =>
    have accepted := quiet.accepted inStep follows.found own mined
    have kept := accepted.leaves inStep follows.found fun off => absurd previous off
    exact (kept.adaptExcept _).bind fun _ _ _ kept => .ok kept

theorem leaves_generate (inStep : InStep config node) (payout : Script) (count : Nat) :
    Leaves (Advances config node) (generate config payout count node) := by
  induction count generalizing node with
  | zero => exact .ok (inStep.advances rfl)
  | succ count ih =>
    have mined := leaves_mineOne inStep payout (some {})
    simp only [generate]
    generalize mineOne config payout (some {}) node = outcome at mined ⊢
    cases mined with
    | ok kept => exact ((ih kept.inStep).mono fun _ => kept.trans).map _
    | @error cause after kept =>
      cases cause with
      | overflow => exact .error kept
      | because _ => exact .ok kept

theorem leaves_generateBlocks (inStep : InStep config node) (count : Int) :
    Leaves (Advances config node) ((backend config).generateBlocks count node) := by
  have same : Advances config node node := inStep.advances rfl
  rw [RpcBackend.generateBlocks]
  refine leaves_guard same ?_
  cases (backend config).wallets.head? with
  | none => exact .error same
  | some wallet =>
    dsimp only
    cases wallet.accounts.head? with
    | none => exact .error same
    | some account =>
      dsimp only
      cases Wallet.unusedScript (backend config).wallets wallet.name account.1 with
      | error cause => exact .error same
      | ok script => exact (leaves_generate inStep script count.toNat).adaptExcept _

theorem leaves_startStakingWith (inStep : InStep config node) (wallet password : String) :
    Leaves (Advances config node) ((backend config).startStakingWith wallet password node) := by
  have same : Advances config node node := inStep.advances rfl
  rw [RpcBackend.startStakingWith]
  refine leaves_guard same ?_
  refine leaves_guard same ?_
  cases Wallet.checkPassword (backend config).wallets wallet password with
  | error cause => exact .error same
  | ok _ =>
    dsimp only
    rw [run_get_bind]
    exact leaves_guard same (.ok ⟨inStep.frame rfl rfl rfl rfl rfl, List.prefix_rfl⟩)

theorem leaves_answer (inStep : InStep config node) (call : RpcCall) :
    Leaves (Advances config node) ((backend config).answer call node) := by
  have same : Advances config node node := inStep.advances rfl
  cases call with
  | getBlockTemplate request =>
    exact ((leaves_blockTemplate request).mono fun _ => inStep.advances_of_quiet).bind fun _ _ _ kept => .ok kept
  | submitBlock hex => exact (leaves_submitBlock inStep hex).bind fun _ _ _ kept => .ok kept
  | getMiningInfo => exact .ok same
  | getNetworkHashRate lookup height => exact .ok same
  | generate count => exact (leaves_generateBlocks inStep count).bind fun _ _ _ kept => .ok kept
  | getStakingInfo json =>
    cases json with
    | true => exact .ok same
    | false => exact .error same
  | startStaking wallet password =>
    exact (leaves_startStakingWith inStep wallet password).bind fun _ _ _ kept => .ok kept
  | prioritiseTransaction txid delta => exact .ok same

theorem handle_of_leaves {holds : Node → Prop} {call : RpcCall}
    (leaves : Leaves holds ((backend config).answer call node)) : holds (handle config node (.call call)) := by
  simp only [handle]
  generalize (backend config).answer call node = outcome at leaves ⊢
  cases leaves with
  | ok kept => exact kept
  | error kept => exact kept

theorem advances_handle (inStep : InStep config node) (event : NodeEvent) :
    Advances config node (handle config node event) := by
  cases event with
  | call call => exact handle_of_leaves (leaves_answer inStep call)
  | offer entry => exact ⟨inStep.frame rfl rfl rfl rfl rfl, List.prefix_rfl⟩
  | clock now => exact ⟨inStep.frame rfl rfl rfl rfl rfl, List.prefix_rfl⟩

/-- No history takes a block away again. -/
theorem advances_handleAll (inStep : InStep config node) (events : List NodeEvent) :
    Advances config node (handleAll config node events) := by
  induction events generalizing node with
  | nil => exact inStep.advances rfl
  | cons event rest ih =>
    have first := advances_handle inStep event
    exact first.trans (ih first.inStep)

theorem answer_submitBlock_eq_null_iff {hex : String} :
    (backend config).answer (.submitBlock hex) node = .ok .null after ↔
      (backend config).submitBlock hex node = .ok .accepted after := by
  rw [RpcBackend.answer, run_bind_eq_ok]
  simp only [run_pure_eq_ok]
  constructor
  · rintro ⟨status, _, answered, silent, rfl⟩
    cases status with
    | accepted => exact answered
    | duplicate => cases silent
    | duplicateInconclusive => cases silent
    | inconclusive => cases silent
  · intro accepted
    exact ⟨_, _, accepted, rfl, rfl⟩

/-- After any history the blocks of a node are those of its chain, one for each height, and its coins are what executing
them in order leaves. Where every known header counts as validated, a submission that is not answered with null changes
neither the chain nor the blocks, the coins or the pool. -/
theorem history_in_step (config : NodeConfig) (clock : UInt32) (genesis : BlockHeader) (events : List NodeEvent) :
    let node := handleAll config (.start clock (some genesis)) events
    (∃ tip, Follows config.params node tip) ∧
      (config.trustsSide = true → ∀ hex,
        (∃ after, (backend config).answer (.submitBlock hex) node = .ok .null after) ∨
          node.Unchanged (handle config node (.call (.submitBlock hex)))) := by
  intro node
  have inStep : InStep config node := (advances_handleAll (inStep_start config clock genesis) events).inStep
  obtain ⟨tip, follows, _⟩ := inStep.follows
  refine ⟨⟨tip, follows⟩, ?_⟩
  intro trusts hex
  obtain ⟨after, accepted⟩ | unchanged := submitBlock_accepts_or_unchanged trusts inStep hex
  · exact .inl ⟨after, answer_submitBlock_eq_null_iff.mpr accepted⟩
  · exact .inr (handle_of_leaves (unchanged.bind fun _ _ _ kept => .ok kept))

/-- A block that joins the chain stays where it is, whatever happens later. -/
theorem joined_block_stays (inStep : InStep config node) (found : node.tip = some tip)
    (reads : RpcBackend.Reads hex block) (joins : Joins config node tip block) (later : List NodeEvent) :
    (node.blocks.push ((backend config).finished node block).1).toList <+:
      (handleAll config node (.call (.submitBlock hex) :: later)).blocks.toList := by
  obtain ⟨after, accepted⟩ := accepted_of_joins inStep found reads joins
  obtain ⟨-, blocks⟩ := joins_of_accepted inStep found reads accepted
  have handled : handle config node (.call (.submitBlock hex)) = after := by
    rw [handle, answer_submitBlock_eq_null_iff.mpr accepted]
  have afterwards := (advances_handle inStep (.call (.submitBlock hex))).inStep
  rw [handled] at afterwards
  rw [handleAll, List.foldl_cons, handled, ← blocks]
  exact (advances_handleAll afterwards later).kept

end Node

/-! A node for a hybrid chain that trusts every header it knows. It takes a block from outside and mines another one on
top before it is offered blocks that it refuses. -/
namespace Wired

def config : NodeConfig where
  params := .regtest
  policy := { payoutHex := some "51" }
  payout := some [0x51]
  powBits := 0x207fffff
  posBits := 0x207fffff
  validator := .coins maxBlockWeight
  wallets := [⟨"mywallet", "password", [("account 0", some "51")]⟩]
  draw := fun _ => 0
  tries := 2147483647
  trustsSide := true

/-- A block on the genesis block, with a nonce that gives it its work. -/
def mined : Block :=
  { Announced.block with header := { Announced.block.header with bits := 0x207fffff, nonce := 3 } }

def later : List NodeEvent :=
  [.call (.generate 1), .offer Staked.entry, .clock 1296688700, .call (.getBlockTemplate {})]

def events : List NodeEvent :=
  .call (.submitBlock (Hex.encode mined.encode)) :: later

private theorem reads_mined : RpcBackend.Reads (Hex.encode mined.encode) mined := by
  refine ⟨?_, rfl⟩
  rw [Decoder.runHex_encode, Block.decoder_exact.run_eq_ok]
  exact ⟨⟨by decide, by decide⟩, rfl⟩

private theorem finished_mined (node : Node) : (Node.backend config).finished node mined = (mined, node) :=
  Node.finished_of_bare config node (by decide)

private theorem mined_has_work :
    Announced.genesis.hash ≠ mined.hash ∧ config.params.checkWork mined.header = .ok () := by
  decide +kernel

private theorem mined_joins :
    Node.Joins config (.start 1296688603 (some Announced.genesis)) (.genesis Announced.genesis) mined := by
  obtain ⟨other, worked⟩ := mined_has_work
  refine ⟨?_, rfl, worked, ?_⟩
  · rw [Node.start, Node.known_recognise]
    exact (if_neg other).trans Std.HashMap.getElem?_empty
  · rw [finished_mined]
    exact Params.validate_eq_ok_iff.mpr ⟨rfl, by decide, _, _, rfl⟩

private theorem mined_stays :
    [{ header := Announced.genesis }, mined] <+:
      (Node.handleAll config (.start 1296688603 (some Announced.genesis)) events).blocks.toList := by
  have start := Node.inStep_start config 1296688603 Announced.genesis
  have stored := Node.joined_block_stays start rfl reads_mined mined_joins later
  rw [finished_mined] at stored
  rw [events]
  exact stored

theorem refused_blocks_change_nothing :
    config.trustsSide = true ∧
      let node := Node.handleAll config (.start 1296688603 (some Announced.genesis)) events
      (∃ tip, Node.Follows config.params node tip) ∧
        [{ header := Announced.genesis }, mined] <+: node.blocks.toList ∧
        ∀ hex ∈ ["00", Announced.hex], node.Unchanged (Node.handle config node (.call (.submitBlock hex))) := by
  obtain ⟨⟨tip, follows⟩, submitted⟩ := Node.history_in_step config 1296688603 Announced.genesis events
  refine ⟨rfl, ⟨tip, follows⟩, mined_stays, ?_⟩
  intro hex listed
  obtain ⟨after, silent⟩ | unchanged := submitted rfl hex
  · exfalso
    rw [List.mem_pair] at listed
    obtain rfl | rfl := listed
    · cases silent
    · -- The block carries no work, so it cannot have joined the chain.
      have start := Node.inStep_start config 1296688603 Announced.genesis
      have accepted := Node.answer_submitBlock_eq_null_iff.mp silent
      obtain ⟨joins, -⟩ :=
        Node.joins_of_accepted (Node.advances_handleAll start events).inStep follows.found Announced.reads accepted
      cases joins.worked
  · exact unchanged

end Wired
end Mintage
