import Mathlib.Tactic.SplitIfs
import Mintage.Proofs.CandidateRuns
import Mintage.Proofs.ScriptNumbers
import Mintage.Proofs.TemplateShape

/-! What a template's own part of a block takes up. The weight held back for the header and the coinbase is more
than they can need, so the block stays within the limit that the selection kept to. -/

namespace Mintage
open Sequencing

namespace Script

/-- A push takes one byte more than the number, for its opcode. -/
theorem length_pushInt {n width : Nat} (small : n < 256 ^ width) (short : width < 0x4b) :
    1 ≤ (pushInt n).length ∧ (pushInt n).length ≤ width + 2 := by
  have number := length_number_le small
  have pushed : (push (Script.number n)).length = (Script.number n).length + 1 := by
    rw [push, if_pos (by omega), List.length_cons]
  unfold pushInt
  split
  · simp
  · split
    · simp
    · split
      · simp
      · rw [pushed]
        omega

end Script

theorem length_coinbaseScript {height : Nat} (low : height ≤ 2 ^ 32) :
    2 ≤ (coinbaseScript height).length ∧ (coinbaseScript height).length ≤ 8 := by
  have bytes : height < 256 ^ 5 := Nat.lt_of_le_of_lt low (by decide)
  have pushed := Script.length_pushInt bytes (by decide)
  rw [coinbaseScript, List.length_append, List.length_singleton]
  omega

namespace CompactSize

theorem size_le (n : Nat) : size n ≤ 9 := by
  unfold size
  split_ifs <;> decide

theorem bytesSize_of_lt {content : Bytes} (short : content.length < 0xfd) :
    bytesSize content = 1 + content.length := by
  rw [bytesSize, size, if_pos short]

theorem contentSize_eq_sum {α : Type} (itemSize : α → Nat) (items : List α) :
    contentSize itemSize items = (items.map itemSize).sum := by
  rw [contentSize, List.sum_eq_foldr, List.foldr_map]

end CompactSize

namespace Block

theorem contentSize_weight (transactions : List Transaction) :
    CompactSize.contentSize Transaction.baseSize transactions * 3 +
        CompactSize.contentSize Transaction.totalSize transactions =
      (transactions.map Transaction.weight).sum := by
  induction transactions with
  | nil => rfl
  | cons tx rest ih =>
    simp only [CompactSize.contentSize, List.foldr_cons, List.map_cons, List.sum_cons, Transaction.weight] at ih ⊢
    omega

theorem weight_le (block : Block) : block.weight ≤ 356 + (block.transactions.map Transaction.weight).sum := by
  have count := CompactSize.size_le block.transactions.length
  have content := contentSize_weight block.transactions
  simp only [weight, baseSize, totalSize, CompactSize.itemsSize, BlockHeader.size]
  omega

theorem totalSize_le (block : Block) : block.totalSize ≤ 89 + (block.transactions.map Transaction.totalSize).sum := by
  have count := CompactSize.size_le block.transactions.length
  simp only [totalSize, CompactSize.itemsSize, BlockHeader.size, CompactSize.contentSize_eq_sum]
  omega

end Block

namespace Assembly

variable (assembly : Assembly) (candidates : List MempoolEntry) (payout : Script)

theorem size_payment_le {bound : Nat} (short : assembly.policy.mode = .proofOfWork → payout.length ≤ bound) :
    (assembly.payment candidates payout).size ≤ 17 + bound := by
  unfold payment
  split
  next mode =>
    have count := CompactSize.size_le payout.length
    have length := short mode
    simp only [TxOutput.size, CompactSize.bytesSize]
    omega
  next => exact Nat.le_add_right_of_le (by decide)

theorem totalSize_coinbase : (assembly.coinbase candidates payout).totalSize =
    (assembly.coinbase candidates payout).baseSize := by
  have bare : (assembly.coinbase candidates payout).hasWitness = false := rfl
  rw [Transaction.totalSize, bare, if_neg Bool.false_ne_true]

theorem baseSize_coinbase_le (low : assembly.height ≤ 2 ^ 32) :
    (assembly.coinbase candidates payout).baseSize ≤ 106 + (assembly.payment candidates payout).size := by
  have script := (length_coinbaseScript low).2
  have commitment : (WitnessCommitment.output (assembly.draft candidates payout)).size = 47 := by
    simp [TxOutput.size, WitnessCommitment.output, WitnessCommitment.header, CompactSize.bytesSize, CompactSize.size]
  have input : TxInput.size { scriptSig := coinbaseScript assembly.height } ≤ 49 := by
    have counted : CompactSize.bytesSize (coinbaseScript assembly.height) =
        1 + (coinbaseScript assembly.height).length :=
      CompactSize.bytesSize_of_lt (by omega)
    simp only [TxInput.size, counted]
    omega
  have inputs : CompactSize.itemsSize TxInput.size (assembly.coinbase candidates payout).inputs ≤ 50 := by
    have count : CompactSize.size 1 = 1 := rfl
    simp only [coinbase, CompactSize.itemsSize, CompactSize.contentSize, List.length_singleton, List.foldr_cons,
      List.foldr_nil, count]
    omega
  have outputs : CompactSize.itemsSize TxOutput.size (assembly.coinbase candidates payout).outputs ≤
      48 + (assembly.payment candidates payout).size := by
    have single : CompactSize.size 1 = 1 := rfl
    have double : CompactSize.size 2 = 1 := rfl
    cases witness : assembly.includeWitness <;>
      simp only [coinbase, witness, if_true, if_false, Bool.false_eq_true, CompactSize.itemsSize,
        CompactSize.contentSize, List.length_cons, List.length_nil, List.foldr_cons, List.foldr_nil, Nat.zero_add, single,
        double, commitment] <;>
      omega
  rw [Transaction.baseSize]
  omega

end Assembly

theorem MinerPolicy.limits_of_validate {policy : MinerPolicy} (passed : policy.validate = .ok ()) :
    (reservedWeight < policy.maxWeight ∧ policy.maxWeight ≤ maxBlockWeight) ∧ reservedSize < policy.maxSize := by
  rw [validate] at passed
  obtain ⟨weight, passed⟩ := guard_eq_ok.mp passed
  have size := (guard_eq_ok.mp passed).1
  simp only [Bool.or_eq_true, decide_eq_true_eq, not_or, Nat.not_le, gt_iff_lt, Nat.not_lt] at weight size
  exact ⟨weight, size⟩

namespace Assembly

section Selection

variable (policy : MinerPolicy) (witness : Bool) (weight size : Nat) (taken : List Hash256)
  (candidates : List MempoolEntry)

theorem select_sublist : (select policy witness weight size taken candidates).Sublist candidates := by
  fun_induction select policy witness weight size taken candidates with
  | case1 => exact List.Sublist.slnil
  | case2 _ _ _ entry _ _ _ ih => exact ih.cons entry
  | case3 _ _ _ entry _ _ _ ih => exact ih.cons_cons entry

theorem isCoinbase_of_mem_select :
    ∀ entry ∈ select policy witness weight size taken candidates, entry.tx.isCoinbase = false := by
  fun_induction select policy witness weight size taken candidates with
  | case1 => simp
  | case2 _ _ _ entry _ _ _ ih => exact ih
  | case3 _ _ _ entry _ _ fits ih =>
    simp only [Bool.or_eq_true, not_or, Bool.not_eq_true] at fits
    exact List.forall_mem_cons.mpr ⟨fits.1.1.1.1.1, ih⟩

theorem select_fits (room : weight < policy.maxWeight) (space : size < policy.maxSize) :
    weight + ((select policy witness weight size taken candidates).map fun entry => entry.tx.weight).sum <
        policy.maxWeight ∧
      size + ((select policy witness weight size taken candidates).map fun entry => entry.tx.totalSize).sum <
        policy.maxSize := by
  fun_induction select policy witness weight size taken candidates with
  | case1 => exact ⟨room, space⟩
  | case2 _ _ _ entry _ _ _ ih => exact ih room space
  | case3 weight size taken entry rest txid fits ih =>
    simp only [Bool.or_eq_true, not_or, decide_eq_true_eq, ge_iff_le, Nat.not_le] at fits
    obtain ⟨weights, sizes⟩ := ih fits.1.1.2 fits.1.2
    simp only [List.map_cons, List.sum_cons]
    omega

end Selection

variable {assembly : Assembly} {candidates : List MempoolEntry} {payout : Script} {version : Int32} {bits : UInt32}

theorem checkStructure_template (low : assembly.height ≤ 2 ^ 32) :
    (assembly.template candidates payout version bits).block.checkStructure = .ok () := by
  have found : (assembly.template candidates payout version bits).block.coinbase? =
      some (assembly.coinbase candidates payout) :=
    Block.coinbase?_eq_some_iff.mpr ⟨_, rfl, rfl⟩
  have single : (assembly.template candidates payout version bits).block.transactions.tail.any Transaction.isCoinbase =
      false := by
    have ordinary := isCoinbase_of_mem_select assembly.policy assembly.includeWitness reservedWeight reservedSize []
      candidates
    change ((assembly.selected candidates).map MempoolEntry.tx).any Transaction.isCoinbase = false
    rw [List.any_map, List.any_eq_false]
    intro entry chosen
    rw [Function.comp_apply, ordinary entry chosen]
    exact Bool.false_ne_true
  have script := length_coinbaseScript low
  have length : ((assembly.coinbase candidates payout).inputs.head?.map fun input => input.scriptSig.length).getD 0 =
      (coinbaseScript assembly.height).length := rfl
  rw [Block.checkStructure, found]
  simp only [single, length, Bool.false_eq_true, if_false]
  rw [if_neg]
  · rfl
  · simp only [Bool.or_eq_true, decide_eq_true_eq]
    omega

/-- What a template takes up besides its chosen transactions and the first output of its coinbase. -/
theorem size_template_le (candidates : List MempoolEntry) (payout : Script) (version : Int32) (bits : UInt32)
    (low : assembly.height ≤ 2 ^ 32) :
    (assembly.template candidates payout version bits).block.weight ≤
        780 + 4 * (assembly.payment candidates payout).size +
          ((assembly.selected candidates).map fun entry => entry.tx.weight).sum ∧
      (assembly.template candidates payout version bits).block.totalSize ≤
        195 + (assembly.payment candidates payout).size +
          ((assembly.selected candidates).map fun entry => entry.tx.totalSize).sum := by
  have own := assembly.baseSize_coinbase_le candidates payout low
  have bare := assembly.totalSize_coinbase candidates payout
  have weight := (assembly.template candidates payout version bits).block.weight_le
  have size := (assembly.template candidates payout version bits).block.totalSize_le
  have listed (measure : Transaction → Nat) :
      ((assembly.template candidates payout version bits).block.transactions.map measure).sum =
        measure (assembly.coinbase candidates payout) +
          ((assembly.selected candidates).map fun entry => measure entry.tx).sum := by
    simp only [template, Block.sealed, List.map_cons, List.sum_cons, List.map_map, Function.comp_def]
  rw [listed, Transaction.weight, bare] at weight
  rw [listed, bare] at size
  omega

theorem selected_fits (candidates : List MempoolEntry) (valid : assembly.policy.validate = .ok ()) :
    reservedWeight + ((assembly.selected candidates).map fun entry => entry.tx.weight).sum < assembly.policy.maxWeight ∧
      reservedSize + ((assembly.selected candidates).map fun entry => entry.tx.totalSize).sum <
        assembly.policy.maxSize := by
  obtain ⟨⟨room, _⟩, space⟩ := MinerPolicy.limits_of_validate valid
  exact select_fits assembly.policy assembly.includeWitness reservedWeight reservedSize [] candidates room space

/-- A finished template keeps to the limits of its policy with sixty-four bytes to spare. -/
theorem template_fits (valid : assembly.policy.validate = .ok ()) (low : assembly.height ≤ 2 ^ 32)
    (short : assembly.policy.mode = .proofOfWork → payout.length ≤ 700) :
    (assembly.template candidates payout version bits).block.weight + 64 ≤ assembly.policy.maxWeight ∧
      (assembly.template candidates payout version bits).block.totalSize + 64 ≤ assembly.policy.maxSize := by
  have payment := assembly.size_payment_le candidates payout short
  obtain ⟨weights, sizes⟩ := selected_fits candidates valid
  obtain ⟨weight, size⟩ := size_template_le candidates payout version bits low
  have heldBack : reservedWeight = 4000 ∧ reservedSize = 1000 := ⟨rfl, rfl⟩
  omega

end Assembly
end Mintage
