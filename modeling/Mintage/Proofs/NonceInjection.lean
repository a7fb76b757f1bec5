import Mintage.Proofs.TemplateCapacity
import Mintage.Proofs.VersionVotes
import Mintage.Proofs.WireCodec
import Mintage.Text.Decimal

/-! What a nonce changes in the block that takes it. It stands in the witness of the coinbase, where no hash of the
block looks, and a coinbase that has a witness takes no other. -/

namespace Mintage

namespace Text

theorem digits?_toDigits (n : Nat) : digits? (Nat.toDigits 10 n) = some n := by
  have decimal : (Nat.toDigits 10 n).all Char.isDigit = true :=
    List.all_eq_true.mpr fun digit written => Nat.isDigit_of_mem_toDigits (by decide) (by decide) written
  have value : (Nat.toDigits 10 n).foldl (fun value c => 10 * value + (c.toNat - 48)) 0 = n := by
    have read : Nat.ofDigitChars 10 (Nat.toDigits 10 n) 0 = n := Nat.ofDigitChars_ten_toDigits
    rwa [Nat.ofDigitChars_eq_foldl] at read
  rw [digits?, if_pos, value]
  simp [decimal, Nat.toDigits_ne_nil]

end Text

namespace Transaction

/-- One input, which spends nothing and has no witness. -/
theorem isCoinbase_and_bare_iff {tx : Transaction} :
    tx.isCoinbase = true ∧ tx.hasWitness = false ↔
      ∃ input, tx.inputs = [input] ∧ input.previous.isNull = true ∧ input.witness = [] := by
  rw [hasWitness_eq_false_iff]
  constructor
  · rintro ⟨coinbase, bare⟩
    unfold isCoinbase at coinbase
    split at coinbase
    next input single => exact ⟨input, single, coinbase, bare input (single ▸ List.mem_singleton_self input)⟩
    next => cases coinbase
  · rintro ⟨input, single, null, empty⟩
    rw [single]
    exact ⟨by simp only [isCoinbase, single, null], List.forall_mem_singleton.mpr empty⟩

theorem witnessed_of_single {tx : Transaction} {input : TxInput} (single : tx.inputs = [input]) (witness : List Bytes) :
    tx.witnessed witness = { tx with inputs := [{ input with witness }] } := by
  rw [witnessed, single, List.map_singleton]

end Transaction

namespace WitnessCommitment

section Change

variable {block after : Block} {active : Bool} {nonce : UInt64}

theorem isSome_lastIndex?_iff {α : Type} {wanted : α → Bool} {items : List α} :
    (lastIndex? wanted items).isSome = true ↔ ∃ item ∈ items, wanted item = true := by
  induction items with
  | nil => simp [lastIndex?]
  | cons first rest ih =>
    rw [lastIndex?, List.exists_mem_cons_iff, ← ih]
    cases lastIndex? wanted rest with
    | some index => simp
    | none =>
      cases wanted first <;> simp

/-- The first transaction is a coinbase with a commitment among its outputs and no witness in its input. -/
def AwaitsNonce (block : Block) : Prop :=
  ∃ coinbase input rest, block.transactions = coinbase :: rest ∧ coinbase.inputs = [input] ∧
    input.previous.isNull = true ∧ input.witness = [] ∧ ∃ output ∈ coinbase.outputs, isCommitment output.script = true

theorem isSome_inject?_iff : (inject? active nonce block).isSome = true ↔ AwaitsNonce block ∧ active = true := by
  rw [Option.isSome_iff_exists]
  constructor
  · rintro ⟨after, given⟩
    obtain ⟨found, active, coinbase, rest, listed, holds, bare, _⟩ := inject?_eq_some_iff.mp given
    obtain ⟨input, single, null, empty⟩ := Transaction.isCoinbase_and_bare_iff.mp ⟨holds, bare⟩
    rw [index?, listed] at found
    exact ⟨⟨coinbase, input, rest, listed, single, null, empty, isSome_lastIndex?_iff.mp found⟩, active⟩
  · rintro ⟨⟨coinbase, input, rest, listed, single, null, empty, commitment⟩, active⟩
    obtain ⟨holds, bare⟩ := Transaction.isCoinbase_and_bare_iff.mpr ⟨input, single, null, empty⟩
    refine ⟨_, inject?_eq_some_iff.mpr ⟨?_, active, coinbase, rest, listed, holds, bare, rfl⟩⟩
    rw [index?, listed]
    exact isSome_lastIndex?_iff.mpr commitment

/-- The input of the first transaction, a coinbase without a witness, is given the nonce for its only witness item.
Nothing else changes. -/
structure GainsNonce (nonce : UInt64) (before after : Block) : Prop where
  header : after.header = before.header
  transactions : ∃ coinbase input rest, before.transactions = coinbase :: rest ∧ coinbase.inputs = [input] ∧
    input.previous.isNull = true ∧ input.witness = [] ∧
    after.transactions = { coinbase with inputs := [{ input with witness := [nonceItem nonce] }] } :: rest

theorem gainsNonce_of_inject? (given : inject? active nonce block = some after) : GainsNonce nonce block after := by
  obtain ⟨_, _, coinbase, rest, listed, holds, bare, rfl⟩ := inject?_eq_some_iff.mp given
  obtain ⟨input, single, null, empty⟩ := Transaction.isCoinbase_and_bare_iff.mp ⟨holds, bare⟩
  refine ⟨rfl, coinbase, input, rest, listed, single, null, empty, ?_⟩
  rw [Transaction.witnessed_of_single single]

/-- What is computed from a block comes out the same for both, as long as it does not measure witnesses. -/
structure SameFromOutside (before after : Block) : Prop where
  hash : after.hash = before.hash
  txids : after.transactions.map Transaction.txid = before.transactions.map Transaction.txid
  merkleRoot : after.computeMerkleRoot = before.computeMerkleRoot
  witnessRoot : after.computeWitnessRoot = before.computeWitnessRoot
  commitmentIndex : index? after = index? before
  baseSize : after.baseSize = before.baseSize

namespace GainsNonce

variable {before : Block}

theorem sameFromOutside (gains : GainsNonce nonce before after) : SameFromOutside before after := by
  obtain ⟨header, coinbase, input, rest, listed, single, _, _, changed⟩ := gains
  rw [← Transaction.witnessed_of_single single] at changed
  have txids : after.transactions.map Transaction.txid = before.transactions.map Transaction.txid := by
    rw [changed, listed, List.map_cons, List.map_cons, Transaction.txid_witnessed]
  refine ⟨?_, txids, ?_, ?_, ?_, ?_⟩
  · rw [Block.hash, header, Block.hash]
  · rw [Block.computeMerkleRoot, txids, Block.computeMerkleRoot]
  · simp only [Block.computeWitnessRoot, changed, listed]
  · simp only [index?, changed, listed]
    rfl
  · simp only [Block.baseSize, changed, listed, CompactSize.itemsSize, CompactSize.contentSize, List.length_cons,
      List.foldr_cons, Transaction.baseSize_witnessed]

/-- The form with witnesses has a marker and a flag besides. -/
theorem totalSize_eq (gains : GainsNonce nonce before after) :
    after.totalSize = before.totalSize + 2 + (TxInput.encodeWitness { witness := [nonceItem nonce] }).length := by
  obtain ⟨_, coinbase, input, rest, listed, single, null, empty, changed⟩ := gains
  obtain ⟨holds, bare⟩ := Transaction.isCoinbase_and_bare_iff.mpr ⟨input, single, null, empty⟩
  have grown := Transaction.totalSize_witnessed holds bare (nonceItem nonce)
  have written : (TxInput.encodeWitness { witness := [nonceItem nonce] }).length =
      1 + CompactSize.bytesSize (nonceItem nonce) := by
    simp [TxInput.encodeWitness, CompactSize.encodeItems, CompactSize.size]
  rw [Transaction.witnessed_of_single single] at grown
  simp only [Block.totalSize, changed, listed, CompactSize.itemsSize, CompactSize.contentSize, List.length_cons,
    List.foldr_cons, grown, written]
  omega

theorem not_awaitsNonce (gains : GainsNonce nonce before after) : ¬ AwaitsNonce after := by
  obtain ⟨_, coinbase, input, rest, _, _, _, _, changed⟩ := gains
  rintro ⟨first, own, others, listed, single, _, empty, _⟩
  obtain ⟨rfl, _⟩ := List.cons.inj (changed.symm.trans listed)
  obtain rfl := List.singleton_inj.mp single
  cases empty

end GainsNonce

end Change

theorem digits?_nonceItem (nonce : UInt64) :
    Text.digits? ((nonceItem nonce).map fun byte => Char.ofNat byte.toNat) = some nonce.toNat := by
  have same : (Nat.toDigits 10 nonce.toNat).map (fun digit => Char.ofNat (Bytes.ofChar digit).toNat) =
      Nat.toDigits 10 nonce.toNat := by
    rw [List.map_congr_left (g := id), List.map_id]
    intro digit written
    have bound := (digit_bounds written).2
    rw [Bytes.ofChar, UInt32.toNat_toUInt8, Nat.mod_eq_of_lt (by omega)]
    exact Char.ofNat_toNat digit
  rw [nonceItem_eq_map, List.map_map, Function.comp_def, same, Text.digits?_toDigits]

theorem length_nonceItem_pos (nonce : UInt64) : 1 ≤ (nonceItem nonce).length := by
  rw [nonceItem_eq_map, List.length_map]
  exact Nat.length_toDigits_pos

section Offer

variable (params : Params) (previous : Option HeaderChain) (nonce : UInt64) (block : Block) (cache : DeploymentCache)

theorem offer_taken_iff :
    (offer params previous nonce block cache).1.1 = true ↔
      AwaitsNonce block ∧ (DeploymentCache.state params previous .segwit cache).1 = .active := by
  have enabled : (DeploymentCache.witnessEnabled params previous cache).1 =
      ((DeploymentCache.state params previous .segwit cache).1 == .active) := rfl
  rw [offer_fst, isSome_inject?_iff, enabled, beq_iff_eq]

theorem offer_of_taken (taken : (offer params previous nonce block cache).1.1 = true) :
    GainsNonce nonce block (offer params previous nonce block cache).1.2 := by
  rw [offer_fst] at taken ⊢
  obtain ⟨after, given⟩ := Option.isSome_iff_exists.mp taken
  rw [offered, given]
  exact gainsNonce_of_inject? given

theorem offer_of_not_taken (refused : (offer params previous nonce block cache).1.1 = false) :
    (offer params previous nonce block cache).1.2 = block := by
  rw [offer_fst] at refused ⊢
  have none : inject? (DeploymentCache.witnessEnabled params previous cache).1 nonce block = none := by
    rwa [Option.isSome_eq_false_iff, Option.isNone_iff_eq_none] at refused
  rw [offered, none, Option.getD_none]

/-- A block without a commitment asks nothing, and asking again gives the same answer. -/
theorem state_after_offer :
    (DeploymentCache.state params previous .segwit (offer params previous nonce block cache).2).1 =
      (DeploymentCache.state params previous .segwit cache).1 := by
  cases found : index? block with
  | none =>
    rw [offer, found]
    rfl
  | some index =>
    rw [offer_of_index? found]
    exact DeploymentCache.state_fst_after_state previous .segwit .segwit

end Offer

/-- A nonce is taken exactly by a block that waits for one where witnesses are active. Then it is all that changes,
every hash of the block and its size without witnesses stay, and the full size grows by what the witness takes. A second
nonce is refused. -/
theorem nonce_is_taken_once (params : Params) (previous : Option HeaderChain) (cache : DeploymentCache)
    (nonce again : UInt64) (block : Block) :
    let ((taken, after), later) := offer params previous nonce block cache
    (taken = true ↔ AwaitsNonce block ∧ (DeploymentCache.state params previous .segwit cache).1 = .active) ∧
    (taken = true → GainsNonce nonce block after ∧ SameFromOutside block after ∧
      after.totalSize = block.totalSize + 2 + (TxInput.encodeWitness { witness := [nonceItem nonce] }).length) ∧
    (taken = false → after = block) ∧
    (Text.digits? ((nonceItem nonce).map fun byte => Char.ofNat byte.toNat) = some nonce.toNat ∧
      1 ≤ (nonceItem nonce).length ∧ (nonceItem nonce).length ≤ 20) ∧
    (offer params previous again after later).1 = (false, after) := by
  have whether := offer_taken_iff params previous nonce block cache
  have grown := offer_of_taken params previous nonce block cache
  have kept := offer_of_not_taken params previous nonce block cache
  have answer := state_after_offer params previous nonce block cache
  generalize offer params previous nonce block cache = outcome at whether grown kept answer ⊢
  obtain ⟨⟨taken, after⟩, later⟩ := outcome
  dsimp only at whether grown kept answer ⊢
  have refused : (offer params previous again after later).1.1 = false := by
    rw [← Bool.not_eq_true, offer_taken_iff, answer]
    rintro ⟨awaits, active⟩
    cases taken with
    | true => exact (grown rfl).not_awaitsNonce awaits
    | false =>
      rw [kept rfl] at awaits
      exact Bool.false_ne_true (whether.mpr ⟨awaits, active⟩)
  refine ⟨whether, ?_, kept, ⟨digits?_nonceItem nonce, length_nonceItem_pos nonce, length_nonceItem_le nonce⟩, ?_⟩
  · intro took
    have gains := grown took
    exact ⟨gains, gains.sameFromOutside, gains.totalSize_eq⟩
  · exact Prod.ext refused (offer_of_not_taken params previous again after later refused)

end WitnessCommitment

/-! A coinbase with two commitments, one of them in an output that pays something. -/
namespace Waiting
open WitnessCommitment

def coinbase : Transaction where
  inputs := [{ scriptSig := [0x51, 0x00] }]
  outputs := [⟨50, header ++ reserved⟩, ⟨0, header ++ reserved⟩]

def block : Block where
  transactions := [coinbase, Staked.entry.tx]

theorem seven_is_taken_and_eight_is_not :
    let ((taken, after), later) := offer .regtest none 7 block {}
    taken = true ∧ GainsNonce 7 block after ∧ SameFromOutside block after ∧ after.totalSize = block.totalSize + 5 ∧
      (offer .regtest none 8 after later).1 = (false, after) := by
  have awaits : AwaitsNonce block :=
    ⟨coinbase, _, _, rfl, rfl, rfl, rfl, _, List.mem_cons_self, by decide⟩
  have written : (TxInput.encodeWitness { witness := [nonceItem 7] }).length = 3 := by decide
  have once := nonce_is_taken_once .regtest none {} 7 8 block
  generalize offer .regtest none 7 block {} = outcome at once ⊢
  obtain ⟨⟨taken, after⟩, later⟩ := outcome
  obtain ⟨whether, grown, _, _, again⟩ := once
  have took := whether.mpr ⟨awaits, rfl⟩
  obtain ⟨gains, same, size⟩ := grown took
  exact ⟨took, gains, same, by rw [size, written], again⟩

end Waiting
end Mintage
