import Mintage.Node.Service
import Mintage.Proofs.Amounts
import Mintage.Proofs.HexText
import Mintage.Proofs.TemplateLimits
import Mintage.Proofs.TemplateVotes
import Mintage.Proofs.WireCodec
import Mintage.Rpc.ExternalMiner

/-! The answer to a template request says all that there is to say about the block. Each text in it reads back, so mining
software that only knows the answer and the payout script arrives at the very block that the node built. -/

namespace Mintage
open Sequencing

namespace Assembly

variable {assembly : Assembly} {candidates : List MempoolEntry} {payout : Script} {version : Int32} {bits : UInt32}

theorem tail_template : (assembly.template candidates payout version bits).block.transactions.tail =
    (assembly.selected candidates).map MempoolEntry.tx :=
  rfl

/-- What a miner who knows the witness rule is told. -/
def reply (assembly : Assembly) (candidates : List MempoolEntry) (payout : Script) (version : Int32) (bits : UInt32)
    (flags : String) : TemplateReply :=
  .ofTemplate (assembly.template candidates payout version bits) assembly.tip.hash flags true

variable {flags : String}

theorem transactions_reply : (assembly.reply candidates payout version bits flags).transactions =
    (assembly.selected candidates).map fun entry => .ofTransaction entry.tx entry.fee := by
  -- The coinbase is the only transaction that the list leaves out.
  have ordinary : ∀ entry ∈ assembly.selected candidates, entry.tx.isCoinbase = false :=
    isCoinbase_of_mem_select _ _ _ _ _ candidates
  have listed : ((assembly.selected candidates).map fun entry => (entry.tx, entry.fee)).filter (!·.1.isCoinbase) =
      (assembly.selected candidates).map fun entry => (entry.tx, entry.fee) := by
    rw [List.filter_eq_self, List.forall_mem_map]
    intro entry chosen
    rw [ordinary entry chosen, Bool.not_false]
  simp only [reply, TemplateReply.ofTemplate, template, Block.sealed, List.zip_cons_cons, List.filter_cons,
    coinbase_isCoinbase, Bool.not_true, Bool.false_eq_true, if_false, List.zip_map', listed, List.map_map]
  rfl

theorem payment_of_work (work : assembly.policy.mode = .proofOfWork) :
    assembly.payment candidates payout =
      ⟨(assembly.params.subsidy assembly.height).add (assembly.fees candidates), payout⟩ := by
  rw [payment, work]

theorem coinbaseValue_reply : (assembly.reply candidates payout version bits flags).coinbaseValue =
    (assembly.payment candidates payout).value := by
  have first : (assembly.template candidates payout version bits).block.coinbase? =
      some (assembly.coinbase candidates payout) :=
    Block.coinbase?_eq_some_iff.mpr ⟨_, rfl, rfl⟩
  simp only [reply, TemplateReply.ofTemplate, first]
  rfl

theorem commitment_reply : (assembly.reply candidates payout version bits flags).commitment =
    if assembly.includeWitness then
      some (Hex.encode (WitnessCommitment.output (assembly.draft candidates payout)).script)
    else none := by
  have filled : (WitnessCommitment.output (assembly.draft candidates payout)).script ≠ [] := List.cons_ne_nil _ _
  cases witness : assembly.includeWitness <;>
    simp [reply, TemplateReply.ofTemplate, template, witness, filled]

theorem coinbase?_reply (work : assembly.policy.mode = .proofOfWork) :
    (assembly.reply candidates payout version bits flags).coinbase? payout =
      some (assembly.coinbase candidates payout) := by
  have height : (assembly.reply candidates payout version bits flags).height = assembly.height := rfl
  rw [TemplateReply.coinbase?, commitment_reply, coinbaseValue_reply, height, coinbase, coinbaseScript,
    payment_of_work work]
  cases assembly.includeWitness with
  | false => simp
  | true =>
    rw [if_pos rfl, if_pos rfl, Option.mapM_some, Hex.decode_encode]
    rfl

private theorem mapM_eq_some {α β : Type} {read : α → Option β} {values : α → β} {items : List α}
    (reads : ∀ item ∈ items, read item = some (values item)) : items.mapM read = some (items.map values) := by
  induction items with
  | nil => rfl
  | cons item rest ih =>
    obtain ⟨first, others⟩ := List.forall_mem_cons.mp reads
    rw [List.mapM_cons, first, ih others]
    rfl

theorem block?_reply (work : assembly.policy.mode = .proofOfWork)
    (decodable : ∀ entry ∈ candidates, entry.tx.Decodable) :
    (assembly.reply candidates payout version bits flags).block? payout =
      some (assembly.template candidates payout version bits).block := by
  have chosen : ∀ entry ∈ assembly.selected candidates, entry.tx.Decodable := by
    intro entry listed
    exact decodable entry ((select_sublist _ _ _ _ _ candidates).subset listed)
  have transactions : ((assembly.selected candidates).map fun entry =>
      TemplateTransaction.ofTransaction entry.tx entry.fee).mapM
        (fun tx => (Transaction.decoder.runHex tx.data).toOption) =
      some ((assembly.selected candidates).map MempoolEntry.tx) := by
    rw [List.mapM_map]
    apply mapM_eq_some
    intro entry listed
    have reads := Transaction.decoder_exact.run_eq_ok.mpr ⟨chosen entry listed, rfl⟩
    simp only [TemplateTransaction.ofTransaction, Function.comp_apply, Decoder.runHex_encode, reads, Except.toOption]
  have previous : (assembly.reply candidates payout version bits flags).previousBlockHash = assembly.tip.hash.toHex := rfl
  have written : (assembly.reply candidates payout version bits flags).bits = Hex.padded 8 bits.toNat := rfl
  rw [TemplateReply.block?, coinbase?_reply work, transactions_reply, transactions, previous, written,
    Hash256.ofHex_toHex, Hex.word?_padded]
  rfl

theorem sum_fees_of_fits (work : assembly.policy.mode = .proofOfWork)
    (positive : ∀ entry ∈ assembly.selected candidates, 0 ≤ entry.fee.toInt)
    (alone : Amount.Fits ((assembly.selected candidates).map fun entry => entry.fee.toInt).sum)
    (together : Amount.Fits ((assembly.params.subsidy assembly.height).toInt +
      ((assembly.selected candidates).map fun entry => entry.fee.toInt).sum)) :
    ((assembly.selected candidates).map fun entry => entry.fee.toInt).sum =
      (assembly.payment candidates payout).value.toInt - (assembly.params.subsidy assembly.height).toInt := by
  have fees : (assembly.fees candidates).toInt =
      ((assembly.selected candidates).map fun entry => entry.fee.toInt).sum :=
    toInt_fees_of_fits positive alone
  rw [← fees] at together ⊢
  rw [payment_of_work work, Amount.toInt_add_of_fits together]
  omega

end Assembly

namespace Node

variable {config : NodeConfig} {request : TemplateRequest} {node after : Node} {reply : TemplateReply}

/-- The reply is made from a template on the tip, and from the rules in force there. -/
theorem blockTemplate_eq_ok_iff :
    (backend config).blockTemplate request node = .ok reply after ↔
      ∃ tip payout built between, node.tip = some tip ∧ config.payout = some payout ∧
        template config tip payout none node = .ok built between ∧
        let flags := query (ScriptFlags.enforced config.params (some tip)) between
        reply = .ofTemplate built tip.hash flags.1.names (request.declares DeploymentId.segwit.name) ∧
          after = flags.2 := by
  rw [RpcBackend.blockTemplate, run_get_bind]
  simp only [backend]
  cases node.tip with
  | none =>
    refine iff_of_false nofun ?_
    rintro ⟨_, _, _, _, ⟨⟩, _⟩
  | some tip =>
    cases config.payout with
    | none =>
      refine iff_of_false nofun ?_
      rintro ⟨_, _, _, _, _, ⟨⟩, _⟩
    | some payout =>
      simp only [run_bind_eq_ok, run_adaptExcept_eq_ok, run_modifyGet_eq_ok, run_pure_eq_ok]
      constructor
      · rintro ⟨built, between, done, flags, _, asked, rfl, rfl⟩
        refine ⟨tip, payout, built, between, rfl, rfl, done, ?_⟩
        rw [asked]
        exact ⟨rfl, rfl⟩
      · rintro ⟨_, _, built, between, ⟨⟩, ⟨⟩, done, rfl, rfl⟩
        exact ⟨built, between, done, _, _, rfl, rfl, rfl⟩

/-- Mining software that knows the witness rule rebuilds the block of the template from the reply and the payout script,
provided that every waiting transaction came off the wire. The reply names the transactions by both their hashes, and
their fees add up to what the coinbase takes beyond the subsidy unless a sum leaves the range of an amount. -/
theorem reply_describes_block (work : config.policy.mode = .proofOfWork)
    (relayed : ∀ entry ∈ node.pool.entries, ∃ bytes, Transaction.decoder.run bytes = .ok entry.tx)
    (declared : request.declares DeploymentId.segwit.name = true)
    (done : (backend config).blockTemplate request node = .ok reply after) :
    ∃ tip payout built between, node.tip = some tip ∧ config.payout = some payout ∧
      template config tip payout none node = .ok built between ∧
      reply.block? payout = some built.block ∧
      reply.transactions.map TemplateTransaction.txid = built.block.transactions.tail.map (·.txid.toHex) ∧
      reply.transactions.map TemplateTransaction.hash = built.block.transactions.tail.map (·.wtxid.toHex) ∧
      let fees := (reply.transactions.map fun tx => tx.fee.toInt).sum
      let subsidy := (config.params.subsidy reply.height).toInt
      (∀ tx ∈ reply.transactions, 0 ≤ tx.fee.toInt) → Amount.Fits fees → Amount.Fits (subsidy + fees) →
        fees = reply.coinbaseValue.toInt - subsidy := by
  obtain ⟨tip, payout, built, between, found, paid, assembled, answered, -⟩ := blockTemplate_eq_ok_iff.mp done
  obtain ⟨candidates, waiting, drafted, -⟩ := template_eq_ok_iff.mp assembled
  refine ⟨tip, payout, built, between, found, paid, assembled, ?_⟩
  rw [declared] at answered
  obtain ⟨bits, -, rfl, -, -⟩ := Assembly.build_eq_ok_iff.mp drafted
  obtain rfl : reply = Assembly.reply _ candidates payout _ bits _ := answered
  have decodable : ∀ entry ∈ candidates, entry.tx.Decodable := by
    intro entry listed
    have same : candidates = node.pool.entries := by
      unfold Node.candidates at waiting
      split at waiting
      next => cases waiting
      next => exact (Except.ok.inj waiting).symm
    obtain ⟨bytes, read⟩ := relayed entry (same ▸ listed)
    exact (Transaction.decoder_exact.run_eq_ok.mp read).1
  refine ⟨Assembly.block?_reply work decodable, ?_⟩
  simp only [Assembly.transactions_reply, Assembly.coinbaseValue_reply, Assembly.tail_template, List.map_map,
    List.forall_mem_map]
  exact ⟨rfl, rfl, Assembly.sum_fees_of_fits work⟩

end Node

/-! A node that mines by proof of work and has one transaction to offer. -/
namespace Worked

def entry : MempoolEntry where
  tx := { inputs := [{ previous := ⟨⟨1⟩, 0⟩ }], outputs := [⟨5, [0x51]⟩] }
  fee := 7

def config : NodeConfig where
  params := .regtest
  policy := { mode := .proofOfWork }
  payout := some [0x51]
  powBits := 0x207fffff
  posBits := 0x207fffff
  validator := .accept
  wallets := []
  draw := fun _ => 0

def node : Node :=
  { Node.start 100 (some {}) with pool := ⟨[entry]⟩ }

def request : TemplateRequest where
  rules := ["segwit"]

theorem entry_is_described :
    (∀ listed ∈ node.pool.entries, ∃ bytes, Transaction.decoder.run bytes = .ok listed.tx) ∧
      request.declares DeploymentId.segwit.name = true ∧
      ∃ reply after, (Node.backend config).blockTemplate request node = .ok reply after ∧
        reply.transactions = [.ofTransaction entry.tx 7] ∧
        ∃ block, reply.block? [0x51] = some block ∧ block.transactions.tail = [entry.tx] ∧
          7 = reply.coinbaseValue.toInt - (config.params.subsidy 1).toInt := by
  have relayed : ∀ listed ∈ node.pool.entries, ∃ bytes, Transaction.decoder.run bytes = .ok listed.tx := by
    intro listed waiting
    obtain rfl := List.mem_singleton.mp waiting
    exact ⟨_, Transaction.decoder_exact.run_eq_ok.mpr ⟨by decide, rfl⟩⟩
  have declared : request.declares DeploymentId.segwit.name = true := by decide +kernel
  obtain ⟨reply, after, done, transactions, height⟩ : ∃ reply after,
      (Node.backend config).blockTemplate request node = .ok reply after ∧
        reply.transactions = [.ofTransaction entry.tx 7] ∧ reply.height = 1 :=
    ⟨_, _, Node.blockTemplate_eq_ok_iff.mpr ⟨_, _, _, _, rfl, rfl, Node.template_eq_ok_iff.mpr ⟨_, rfl,
      Assembly.build_eq_ok_iff.mpr ⟨_, rfl, rfl, fun _ => rfl, rfl⟩, rfl⟩, rfl, rfl⟩, rfl, rfl⟩
  obtain ⟨_, _, _, _, ⟨⟩, ⟨⟩, assembled, rebuilt, -, -, fees⟩ :=
    Node.reply_describes_block rfl relayed declared done
  obtain ⟨_, ⟨⟩, drafted, -⟩ := Node.template_eq_ok_iff.mp assembled
  obtain ⟨_, -, rfl, -⟩ := Assembly.build_eq_ok_iff.mp drafted
  rw [transactions, height] at fees
  refine ⟨relayed, declared, reply, after, done, transactions, _, rebuilt, rfl, ?_⟩
  exact fees (by decide) (by decide) (by decide)

end Worked
end Mintage
