import Mintage.Node.Service
import Mintage.Proofs.HexText
import Mintage.Proofs.NodeInvariant
import Mintage.Proofs.WireCodec

/-! What a miner learns about a block that it submits. A block that is not validated yet is handed to the node, and the
answer depends on what becomes of it and on whether its header was known before. -/

namespace Mintage
open Sequencing

namespace RpcBackend

variable {σ : Type} (node : RpcBackend σ)

/-- A block with what its parent allows to be filled in, and the node after asking. -/
def finished (state : σ) (block : Block) : Block × σ :=
  match node.known? state block.header.previous with
  | some parent => node.finish parent.chain block state
  | none => (block, state)

/-- What becomes of a block that is handed over. -/
def handOver (state : σ) (block : Block) : EStateM.Result RuleError σ Unit :=
  node.accept (node.finished state block).1 (node.finished state block).2

/-- How a submission is answered once the node has taken or refused the block. -/
def settle (known : Option KnownHeader) (hash : Hash256) :
    EStateM.Result RuleError σ Unit → EStateM.Result (Fault RpcError) σ Submission
  | .ok _ after =>
    let isTip := (node.tip after).any (·.hash == hash)
    match known with
    | some _ => .ok (if isTip then .duplicate else .duplicateInconclusive) after
    | none => .ok (if isTip then .accepted else .inconclusive) after
  | .error cause after =>
    match known with
    | some _ => .ok .duplicate after
    | none => .error (.because (.ofRule cause)) after

/-- The text is that of a block with a coinbase. -/
structure Reads (hex : String) (block : Block) : Prop where
  decoded : Block.decoder.runHex hex = .ok block
  coinbase : block.coinbase?.isSome = true

theorem Reads.not_isNone {hex : String} {block : Block} (reads : Reads hex block) :
    ¬ block.coinbase?.isNone = true := by
  rw [Bool.not_eq_true, Option.isNone_eq_false_iff]
  exact reads.coinbase

/-- The block was submitted before, or otherwise come by, and found good. -/
def validated (state : σ) (block : Block) : Bool :=
  (node.known? state block.hash).any KnownHeader.validated

theorem settle_error (known : Option KnownHeader) (hash : Hash256) (cause : RuleError) (after : σ) :
    node.settle known hash (.error cause after) =
      if known.isSome then .ok .duplicate after else .error (.because ⟨-25, cause.reason, none⟩) after := by
  cases known <;> rfl

theorem settle_eq_ok_iff (known : Option KnownHeader) (hash : Hash256) (outcome : EStateM.Result RuleError σ Unit) :
    (∃ status after, node.settle known hash outcome = .ok status after) ↔
      known.isSome = true ∨ ∃ after, outcome = .ok () after := by
  cases outcome with
  | ok _ final =>
    refine iff_of_true ?_ (.inr ⟨final, rfl⟩)
    cases known <;> exact ⟨_, final, rfl⟩
  | error cause final =>
    rw [settle_error]
    cases known <;> simp

theorem settle_eq_accepted_iff {known : Option KnownHeader} {hash : Hash256} {outcome : EStateM.Result RuleError σ Unit}
    {after : σ} : node.settle known hash outcome = .ok .accepted after ↔
      known = none ∧ outcome = .ok () after ∧ (node.tip after).any (·.hash == hash) = true := by
  cases outcome with
  | error cause final => cases known <;> simp [settle]
  | ok _ final =>
    cases known with
    | some _ =>
      simp only [settle, reduceCtorEq, false_and, iff_false]
      split <;> simp
    | none =>
      simp only [settle, true_and]
      split
      next isTip =>
        simp only [EStateM.Result.ok.injEq, true_and]
        constructor
        · rintro rfl
          exact ⟨rfl, isTip⟩
        · exact And.left
      next other =>
        refine iff_of_false nofun ?_
        rintro ⟨⟨⟩, isTip⟩
        exact other isTip

section Answers

variable {node} {state : σ} {hex : String} {block : Block}

theorem submitBlock_of_validated (reads : Reads hex block) (old : node.validated state block = true) :
    node.submitBlock hex state = .ok .duplicate state := by
  rw [validated] at old
  rw [submitBlock, reads.decoded]
  simp only [if_neg reads.not_isNone]
  rw [run_get_bind, if_pos old]
  rfl

theorem submitBlock_of_fresh (reads : Reads hex block) (fresh : node.validated state block = false) :
    node.submitBlock hex state =
      node.settle (node.known? state block.hash) block.hash (node.handOver state block) := by
  rw [validated, ← Bool.not_eq_true] at fresh
  rw [submitBlock, reads.decoded]
  simp only [if_neg reads.not_isNone]
  rw [run_get_bind, if_neg fresh, run_get_bind, handOver, finished]
  cases node.known? state block.header.previous with
  | none =>
    dsimp only
    rw [run_pure_bind, run_modifyGet_bind, run_get_bind]
    cases node.known? state block.hash <;> cases node.accept block state <;> rfl
  | some older =>
    dsimp only
    rw [run_modifyGet_bind, run_modifyGet_bind, run_get_bind]
    rcases node.finish older.chain block state with ⟨filled, between⟩
    cases node.known? state block.hash <;> cases node.accept filled between <;> rfl

theorem submitBlock_of_not_reads (node : RpcBackend σ) (state : σ) (none : ∀ block, ¬ Reads hex block) :
    ∃ message, node.submitBlock hex state = .error (.because (.deserialization message)) state := by
  rw [submitBlock]
  cases decoded : Block.decoder.runHex hex with
  | error cause => exact ⟨_, rfl⟩
  | ok block =>
    have coinbase : block.coinbase?.isNone = true := by
      rw [Option.isNone_iff_eq_none, ← Option.not_isSome_iff_eq_none]
      exact fun coinbase => none block ⟨decoded, coinbase⟩
    simp only [if_pos coinbase]
    exact ⟨_, rfl⟩

theorem submitBlock_eq_ok_iff (reads : Reads hex block) :
    (∃ status after, node.submitBlock hex state = .ok status after) ↔
      (node.known? state block.hash).isSome = true ∨ ∃ after, node.handOver state block = .ok () after := by
  cases old : node.validated state block with
  | true =>
    have known : (node.known? state block.hash).isSome = true := Option.isSome_of_any old
    exact iff_of_true ⟨_, _, submitBlock_of_validated reads old⟩ (.inl known)
  | false => rw [submitBlock_of_fresh reads old, settle_eq_ok_iff]

end Answers

/-- The reason for which a block is rejected is given to a miner exactly if the header was not known before. There is
a status and no error for every block that is accepted or whose header was known, validated or not, and for no other. -/
theorem rejection_reaches_miner_iff_unknown (node : RpcBackend σ) (state : σ) (hex : String) :
    (∀ block cause after, Reads hex block → node.validated state block = false →
      node.handOver state block = .error cause after →
      node.submitBlock hex state =
        if (node.known? state block.hash).isSome then .ok .duplicate after
        else .error (.because ⟨-25, cause.reason, none⟩) after) ∧
    ((∃ status after, node.submitBlock hex state = .ok status after) ↔
      ∃ block, Reads hex block ∧
        ((node.known? state block.hash).isSome = true ∨ ∃ after, node.handOver state block = .ok () after)) := by
  refine ⟨?_, ?_, ?_⟩
  · intro block cause after reads fresh rejected
    rw [submitBlock_of_fresh reads fresh, rejected, settle_error]
  · intro answered
    by_cases readable : ∃ block, Reads hex block
    · obtain ⟨block, reads⟩ := readable
      exact ⟨block, reads, (submitBlock_eq_ok_iff reads).mp answered⟩
    · obtain ⟨message, failed⟩ := node.submitBlock_of_not_reads state (not_exists.mp readable)
      obtain ⟨status, after, answered⟩ := answered
      cases failed.symm.trans answered
  · rintro ⟨block, reads, why⟩
    exact (submitBlock_eq_ok_iff reads).mpr why

end RpcBackend

/-- A block without a commitment is complete as it is. -/
theorem Node.finished_of_bare (config : NodeConfig) (node : Node) {block : Block}
    (bare : WitnessCommitment.index? block = none) : (Node.backend config).finished node block = (block, node) := by
  have filled (parent : HeaderChain) : Node.finish config parent block node = (block, node) := by
    rw [Node.finish, bare]
    rfl
  rw [RpcBackend.finished]
  split
  next parent _ => exact filled parent.chain
  next => rfl

/-! A block without work, on a node that knows nothing and on one that has heard of its header. -/
namespace Announced
open RpcBackend

def config : NodeConfig where
  params := .regtest
  policy := {}
  payout := none
  powBits := 0x207fffff
  posBits := 0x207fffff
  validator := .coins maxBlockWeight
  wallets := []
  draw := fun _ => 0

def genesis : BlockHeader where
  version := 1
  time := 1296688602
  bits := 0x207fffff

def block : Block where
  header := { previous := genesis.hash }
  transactions := [{ inputs := [{ scriptSig := [0x51, 0x00] }], outputs := [⟨50, [0x51]⟩] }]

def blank : Node :=
  .start 1600000000 none

def informed : Node :=
  (Node.start 1600000000 (some genesis)).recognise (.extend (.genesis genesis) block.header) false

def hex : String :=
  Hex.encode block.encode

theorem reads : Reads hex block := by
  refine ⟨?_, rfl⟩
  rw [hex, Decoder.runHex_encode, Block.decoder_exact.run_eq_ok]
  exact ⟨⟨by decide, by decide⟩, rfl⟩

private theorem rejected_blank : ∃ after, (Node.backend config).handOver blank block = .error .wrongParent after := by
  have unknown (hash : Hash256) : blank.known[hash]? = none := Std.HashMap.getElem?_empty
  have asked : (Node.backend config).known? blank block.header.previous = none := unknown _
  rw [handOver, finished, asked]
  change ∃ after, Node.accept config block blank = .error .wrongParent after
  rw [Node.accept_of_checked config rfl, Node.acceptChecked, run_get_bind]
  dsimp only
  rw [unknown]
  exact ⟨_, rfl⟩

theorem unknown_block_is_rejected_with_reason :
    Reads hex block ∧ (Node.backend config).validated blank block = false ∧
      ∃ after, (Node.backend config).handOver blank block = .error .wrongParent after ∧
        (Node.backend config).submitBlock hex blank =
          .error (.because ⟨-25, RuleError.wrongParent.reason, none⟩) after := by
  have unknown : (Node.backend config).known? blank block.hash = none := Std.HashMap.getElem?_empty
  have fresh : (Node.backend config).validated blank block = false := by
    rw [validated, unknown, Option.any_none]
  obtain ⟨after, rejected⟩ := rejected_blank
  have answered :=
    (rejection_reaches_miner_iff_unknown (Node.backend config) blank hex).1 block _ after reads fresh rejected
  rw [unknown] at answered
  exact ⟨reads, fresh, after, rejected, answered⟩

private theorem rejected_informed :
    ∃ after, (Node.backend config).handOver informed block = .error .highHash after := by
  obtain ⟨parent, known⟩ : ∃ parent, informed.known[block.header.previous]? = some parent := by
    have first : (Node.start 1600000000 (some genesis)).known[block.header.previous]? = some ⟨.genesis genesis, true⟩ :=
      Std.HashMap.getElem?_insert_self
    rw [informed, Node.known_recognise, first]
    split
    next => exact ⟨_, rfl⟩
    next => exact ⟨_, rfl⟩
  have bare : WitnessCommitment.index? block = none := by decide
  have work : config.params.checkWork block.header = .error .highHash := rfl
  rw [handOver, Node.finished_of_bare config informed bare]
  change ∃ after, Node.accept config block informed = .error .highHash after
  rw [Node.accept_of_checked config rfl, Node.acceptChecked, run_get_bind]
  dsimp only
  rw [known, work]
  exact ⟨_, rfl⟩

theorem known_block_is_rejected_without_reason :
    Reads hex block ∧ (Node.backend config).validated informed block = false ∧
      ∃ after, (Node.backend config).handOver informed block = .error .highHash after ∧
        (Node.backend config).submitBlock hex informed = .ok .duplicate after := by
  have noted : (Node.backend config).known? informed block.hash =
      some ⟨.extend (.genesis genesis) block.header, false⟩ :=
    Std.HashMap.getElem?_insert_self
  have fresh : (Node.backend config).validated informed block = false := by
    rw [validated, noted]
    rfl
  obtain ⟨after, rejected⟩ := rejected_informed
  refine ⟨reads, fresh, after, rejected, ?_⟩
  rw [submitBlock_of_fresh reads fresh, rejected, noted]
  rfl

end Announced
end Mintage
