import Mintage.Proofs.ReservedValue
import Mintage.Proofs.TemplateLimits

/-! The limits of the policy hold for finished blocks. The selection counts transactions only, but the header, the
count, the coinbase and its commitment take less than what it holds back, and so does the nonce that comes later. -/

namespace Mintage

namespace Transaction

theorem baseSize_witnessed (tx : Transaction) (witness : List Bytes) : (tx.witnessed witness).baseSize = tx.baseSize := by
  have input (input : TxInput) : { input with witness }.size = input.size := rfl
  simp only [baseSize, witnessed, CompactSize.itemsSize, CompactSize.contentSize_eq_sum, List.length_map, List.map_map,
    Function.comp_def, input]

/-- One witness item brings a marker, a flag and the count of items with it. -/
theorem totalSize_witnessed {tx : Transaction} (coinbase : tx.isCoinbase = true) (bare : tx.hasWitness = false)
    (item : Bytes) :
    (tx.witnessed [item]).totalSize = tx.totalSize + 3 + CompactSize.bytesSize item := by
  unfold isCoinbase at coinbase
  split at coinbase
  next input single =>
    have extended : (tx.witnessed [item]).hasWitness = true := by simp [hasWitness, witnessed, single]
    have count : CompactSize.size 1 = 1 := rfl
    have written : CompactSize.contentSize TxInput.witnessSize (tx.witnessed [item]).inputs =
        1 + CompactSize.bytesSize item := by
      simp only [witnessed, single, List.map_cons, List.map_nil, CompactSize.contentSize_eq_sum, TxInput.witnessSize,
        CompactSize.itemsSize, List.length_singleton, count, List.sum_cons, List.sum_nil]
      omega
    rw [totalSize, extended, if_pos rfl, baseSize_witnessed, written, totalSize, bare, if_neg Bool.false_ne_true]
    omega
  next => cases coinbase

end Transaction

namespace WitnessCommitment

theorem length_nonceItem_le (nonce : UInt64) : (nonceItem nonce).length ≤ 20 := by
  rw [nonceItem_eq_map, List.length_map]
  exact Nat.toDigits_length 10 nonce.toNat 20 (by decide) (Nat.lt_trans nonce.toNat_lt (by decide))

theorem size_offered_le (active : Bool) (nonce : UInt64) (block : Block) :
    (offered active nonce block).weight ≤ block.weight + 24 ∧
      (offered active nonce block).totalSize ≤ block.totalSize + 24 := by
  unfold offered
  cases given : inject? active nonce block with
  | none => exact ⟨Nat.le_add_right _ _, Nat.le_add_right _ _⟩
  | some after =>
    obtain ⟨_, _, coinbase, rest, listed, holds, bare, same⟩ := inject?_eq_some_iff.mp given
    subst same
    have digits := length_nonceItem_le nonce
    have item : CompactSize.bytesSize (nonceItem nonce) = 1 + (nonceItem nonce).length :=
      CompactSize.bytesSize_of_lt (by omega)
    simp only [Option.getD_some, Block.weight, Block.baseSize, Block.totalSize, CompactSize.itemsSize,
      CompactSize.contentSize, listed, List.length_cons, List.foldr_cons, Transaction.baseSize_witnessed,
      Transaction.totalSize_witnessed holds bare]
    omega

end WitnessCommitment

namespace Assembly

/-- The block of a template, and what becomes of it when it is offered a nonce, are within the weight and the size that
the policy allows. -/
theorem build_within_limits {assembly : Assembly} {version : Int32} {candidates : List MempoolEntry} {payout : Script}
    {built : BlockTemplate} (valid : assembly.policy.validate = .ok ()) (low : assembly.tip.height < 2 ^ 32)
    (short : assembly.policy.mode = .proofOfWork → payout.length ≤ 700)
    (done : assembly.build version candidates payout = .ok built) :
    (built.block.weight ≤ assembly.policy.maxWeight ∧ built.block.totalSize ≤ assembly.policy.maxSize) ∧
      ∀ active nonce, (WitnessCommitment.offered active nonce built.block).weight ≤ assembly.policy.maxWeight ∧
        (WitnessCommitment.offered active nonce built.block).totalSize ≤ assembly.policy.maxSize := by
  obtain ⟨bits, _, rfl, _, _⟩ := build_eq_ok_iff.mp done
  obtain ⟨weight, size⟩ : (assembly.template candidates payout version bits).block.weight + 64 ≤ _ ∧
      (assembly.template candidates payout version bits).block.totalSize + 64 ≤ _ :=
    template_fits valid low short
  refine ⟨⟨by omega, by omega⟩, ?_⟩
  intro active nonce
  have larger := WitnessCommitment.size_offered_le active nonce (assembly.template candidates payout version bits).block
  omega

end Assembly

namespace Staked

/-- A template for proof of work, with the tightest limits under which the entry is taken. -/
def tight : Assembly :=
  { assembly with policy := {
    mode := .proofOfWork
    maxWeight := reservedWeight + entry.tx.weight + 1
    maxSize := reservedSize + entry.tx.totalSize + 1 } }

def longScript : Script :=
  List.replicate 700 0x51

theorem entry_fits_tightly :
    tight.policy.validate = .ok () ∧ longScript.length ≤ 700 ∧
      ∃ built, tight.build 7 [entry] longScript = .ok built ∧ built.block.transactions.tail = [entry.tx] ∧
        (built.block.weight ≤ tight.policy.maxWeight ∧ built.block.totalSize ≤ tight.policy.maxSize) ∧
        ∀ active nonce, (WitnessCommitment.offered active nonce built.block).weight ≤ tight.policy.maxWeight ∧
          (WitnessCommitment.offered active nonce built.block).totalSize ≤ tight.policy.maxSize := by
  have valid : tight.policy.validate = .ok () := rfl
  have low : tight.tip.height < 2 ^ 32 := by decide
  have short : longScript.length ≤ 700 := Nat.le_of_eq List.length_replicate
  obtain ⟨bits, found⟩ : ∃ bits, tight.bits? = some bits := ⟨_, rfl⟩
  have done : tight.build 7 [entry] longScript = .ok (tight.template [entry] longScript 7 bits) :=
    Assembly.build_eq_ok_iff.mpr ⟨_, found, rfl, fun _ => rfl, rfl⟩
  exact ⟨valid, short, _, done, rfl, Assembly.build_within_limits valid low (fun _ => short) done⟩

end Staked
end Mintage
