import Mintage.Proofs.HexText
import Mintage.Proofs.TemplateCapacity
import Mintage.Proofs.WireCodec

/-! Which templates survive the wire. The weight of a block bounds every length in it, and no block within the limits is
heavy enough for a decoder to refuse. What is lost is a transaction with outputs and without inputs, whose zero count of
inputs reads as the mark of the form with witnesses. -/

namespace Mintage

namespace CompactSize

variable {α : Type} {itemSize : α → Nat} {items : List α}

theorem one_le_size (n : Nat) : 1 ≤ size n := by
  unfold size
  split_ifs <;> decide

theorem itemSize_le_contentSize {item : α} (listed : item ∈ items) : itemSize item ≤ contentSize itemSize items := by
  rw [contentSize_eq_sum]
  exact List.le_sum_of_mem (List.mem_map_of_mem listed)

theorem length_le_contentSize (filled : ∀ item, 1 ≤ itemSize item) : items.length ≤ contentSize itemSize items := by
  have bound : (items.map itemSize).length ≤ (items.map itemSize).sum := by
    apply List.length_le_sum_of_one_le
    intro size listed
    obtain ⟨item, _, rfl⟩ := List.mem_map.mp listed
    exact filled item
  rwa [List.length_map, ← contentSize_eq_sum] at bound

end CompactSize

namespace TxInput
open CompactSize

theorem decodable_of_size_le {input : TxInput} (base : input.size ≤ maxLength)
    (witness : input.witnessSize ≤ maxLength) : input.Decodable := by
  have count : input.witness.length ≤ contentSize bytesSize input.witness :=
    length_le_contentSize fun item => Nat.le_add_right_of_le (one_le_size item.length)
  simp only [size, bytesSize] at base
  simp only [witnessSize, itemsSize] at witness
  refine ⟨by omega, ⟨by omega, ?_⟩⟩
  intro item listed
  have own : bytesSize item ≤ contentSize bytesSize input.witness := itemSize_le_contentSize listed
  simp only [bytesSize] at own
  omega

end TxInput

namespace Transaction
open CompactSize

variable {tx : Transaction}

/-- A zero count of inputs is followed by another zero, not by outputs. -/
def Unambiguous (tx : Transaction) : Prop :=
  tx.inputs ≠ [] ∨ tx.outputs = []

theorem Unambiguous.of_isCoinbase (coinbase : tx.isCoinbase = true) : tx.Unambiguous := by
  unfold isCoinbase at coinbase
  split at coinbase
  next input single => exact .inl (by simp [single])
  next => cases coinbase

theorem witnessSize_le_totalSize {input : TxInput} (listed : input ∈ tx.inputs) :
    input.witnessSize ≤ tx.totalSize + 1 := by
  rw [totalSize]
  split
  next =>
    have own : input.witnessSize ≤ contentSize TxInput.witnessSize tx.inputs := itemSize_le_contentSize listed
    omega
  next bare =>
    -- No witness is counted, but an empty one would take a single byte.
    have none := hasWitness_eq_false_iff.mp (Bool.eq_false_iff.mpr bare) input listed
    have single : input.witnessSize = 1 := by
      rw [TxInput.witnessSize, none]
      rfl
    omega

/-- All that can be wrong with a transaction of bounded weight is its shape. -/
theorem decodable_iff_of_weight_lt (light : tx.weight < maxLength) : tx.Decodable ↔ tx.Unambiguous := by
  constructor
  · intro decodable
    exact decodable.shape
  · intro shape
    simp only [weight, baseSize, itemsSize] at light
    have inputCount : tx.inputs.length ≤ contentSize TxInput.size tx.inputs :=
      length_le_contentSize fun input => Nat.le_add_left_of_le (by decide)
    have outputCount : tx.outputs.length ≤ contentSize TxOutput.size tx.outputs :=
      length_le_contentSize fun output => Nat.le_add_right_of_le (by decide)
    refine ⟨by omega, by omega, ?_, ?_, shape⟩
    · intro input listed
      have base : input.size ≤ contentSize TxInput.size tx.inputs := itemSize_le_contentSize listed
      have witness := witnessSize_le_totalSize listed
      exact TxInput.decodable_of_size_le (by omega) (by omega)
    · intro output listed
      have own : output.size ≤ contentSize TxOutput.size tx.outputs := itemSize_le_contentSize listed
      simp only [TxOutput.size, bytesSize] at own
      omega

end Transaction

namespace Block
open CompactSize

theorem decodable_iff_of_weight_lt {block : Block} (light : block.weight < maxLength) :
    block.Decodable ↔ ∀ tx ∈ block.transactions, tx.Unambiguous := by
  have content := contentSize_weight block.transactions
  simp only [weight, baseSize, totalSize, itemsSize] at light
  have own (tx : Transaction) (listed : tx ∈ block.transactions) : tx.weight < maxLength := by
    have part := List.le_sum_of_mem (List.mem_map_of_mem listed : tx.weight ∈ block.transactions.map Transaction.weight)
    omega
  constructor
  · intro decodable tx listed
    exact (Transaction.decodable_iff_of_weight_lt (own tx listed)).mp (decodable.transactions tx listed)
  · intro shapes
    have count : block.transactions.length ≤ contentSize Transaction.baseSize block.transactions :=
      length_le_contentSize fun tx => Nat.le_add_left_of_le (by decide)
    exact ⟨by omega, fun tx listed => (Transaction.decodable_iff_of_weight_lt (own tx listed)).mpr (shapes tx listed)⟩

end Block

namespace WitnessCommitment

theorem unambiguous_offered_iff (active : Bool) (nonce : UInt64) (block : Block) :
    (∀ tx ∈ (offered active nonce block).transactions, tx.Unambiguous) ↔
      ∀ tx ∈ block.transactions, tx.Unambiguous := by
  unfold offered
  cases given : inject? active nonce block with
  | none => rfl
  | some after =>
    obtain ⟨_, _, coinbase, rest, listed, holds, _, rfl⟩ := inject?_eq_some_iff.mp given
    have witnessed : (coinbase.witnessed [nonceItem nonce]).Unambiguous := by
      apply Transaction.Unambiguous.of_isCoinbase
      rw [Transaction.isCoinbase_witnessed, holds]
    rw [Option.getD_some, listed, List.forall_mem_cons, List.forall_mem_cons]
    exact and_congr_left fun _ => iff_of_true witnessed (.of_isCoinbase holds)

end WitnessCommitment

namespace Assembly

variable {assembly : Assembly} {version : Int32} {candidates : List MempoolEntry} {payout : Script}
  {built : BlockTemplate}

theorem weight_build_lt (valid : assembly.policy.validate = .ok ()) (low : assembly.tip.height < 2 ^ 32)
    (short : payout.length ≤ 10000) (done : assembly.build version candidates payout = .ok built) :
    built.block.weight + 24 < maxLength := by
  obtain ⟨bits, _, rfl, _, _⟩ := build_eq_ok_iff.mp done
  have most := (MinerPolicy.limits_of_validate valid).1.2
  have payment := assembly.size_payment_le candidates payout fun _ => short
  have chosen := (selected_fits candidates valid).1
  have whole := (size_template_le candidates payout version bits low).1
  have limits : reservedWeight = 4000 ∧ maxBlockWeight = 4000000 ∧ maxLength = 33554432 := ⟨rfl, rfl, rfl⟩
  omega

/-- A template reads back from its bytes if and only if none of its transactions has outputs but no inputs. The same goes
for the block that a miner makes of it, whatever the header and the nonce, and for its hexadecimal text. -/
theorem build_decodes_iff (valid : assembly.policy.validate = .ok ()) (low : assembly.tip.height < 2 ^ 32)
    (short : payout.length ≤ 10000) (done : assembly.build version candidates payout = .ok built) :
    (Block.decoder.run built.block.encode = .ok built.block ↔ ∀ tx ∈ built.block.transactions, tx.Unambiguous) ∧
    ∀ active nonce header, let mined := { WitnessCommitment.offered active nonce built.block with header }
      Block.decoder.runHex (Hex.encode mined.encode) = .ok mined ↔
        ∀ tx ∈ built.block.transactions, tx.Unambiguous := by
  have light := weight_build_lt valid low short done
  have reads (block : Block) (light : block.weight < maxLength) :
      Block.decoder.run block.encode = .ok block ↔ ∀ tx ∈ block.transactions, tx.Unambiguous := by
    rw [Block.decoder_exact.run_eq_ok, Block.decodable_iff_of_weight_lt light, and_iff_left rfl]
  refine ⟨reads built.block (by omega), ?_⟩
  intro active nonce header mined
  have heavier := (WitnessCommitment.size_offered_le active nonce built.block).1
  have weight : mined.weight = (WitnessCommitment.offered active nonce built.block).weight := rfl
  rw [Decoder.runHex_encode, reads mined (by omega)]
  exact WitnessCommitment.unambiguous_offered_iff active nonce built.block

end Assembly

namespace Staked

/-- Nothing is spent and nothing is gained. -/
def inputless : MempoolEntry where
  tx := { outputs := [⟨0, [0x51]⟩] }
  fee := 0

private theorem build_eq_template (entry : MempoolEntry) (consistent :
    (assembly.template [entry] [0x51] 7 0x1d00ffff).isConsistent = true) :
    assembly.build 7 [entry] [0x51] = .ok (assembly.template [entry] [0x51] 7 0x1d00ffff) := by
  have mode : assembly.policy.mode ≠ .proofOfWork := by decide
  exact Assembly.build_eq_ok_iff.mpr ⟨_, rfl, rfl, fun checked => absurd checked mode, consistent⟩

theorem entry_reads_back :
    assembly.policy.validate = .ok () ∧ assembly.tip.height < 2 ^ 32 ∧ ∃ built,
      assembly.build 7 [entry] [0x51] = .ok built ∧ built.block.transactions.tail = [entry.tx] ∧
        Block.decoder.run built.block.encode = .ok built.block := by
  have done := build_eq_template entry rfl
  refine ⟨rfl, by decide, _, done, rfl, ?_⟩
  refine (Assembly.build_decodes_iff rfl (by decide) (by decide) done).1.mpr ?_
  refine List.forall_mem_cons.mpr ⟨.of_isCoinbase rfl, ?_⟩
  exact List.forall_mem_singleton.mpr (.inl (List.cons_ne_nil _ _))

theorem inputless_entry_is_lost :
    assembly.policy.validate = .ok () ∧ ([0x51] : Script).length ≤ 10000 ∧ ∃ built,
      assembly.build 7 [inputless] [0x51] = .ok built ∧ built.block.transactions.tail = [inputless.tx] ∧
        Block.decoder.run built.block.encode ≠ .ok built.block := by
  have done := build_eq_template inputless rfl
  refine ⟨rfl, by decide, _, done, rfl, ?_⟩
  intro reads
  have decodable := (Block.decoder_exact.run_eq_ok.mp reads).1
  exact absurd (decodable.transactions inputless.tx (.tail _ (.head _))).shape (by decide)

end Staked
end Mintage
