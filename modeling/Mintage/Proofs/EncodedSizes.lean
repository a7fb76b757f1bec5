import Mintage.Proofs.WireCodec

/-! Sizes are the lengths of what is written. They are added up in a second pass that writes nothing, and the limits on
transactions and blocks look at these sums alone. -/

namespace Mintage

namespace CompactSize

variable {α : Type} {encode : α → Bytes} {size : α → Nat}

theorem length_flatMap (sized : ∀ item, (encode item).length = size item) (items : List α) :
    (items.flatMap encode).length = contentSize size items := by
  induction items with
  | nil => rfl
  | cons item rest ih =>
    rw [List.flatMap_cons, List.length_append, sized, ih]
    rfl

theorem length_encodeItems (sized : ∀ item, (encode item).length = size item) (items : List α) :
    (encodeItems encode items).length = itemsSize size items := by
  rw [encodeItems, List.length_append, length_encode, length_flatMap sized, itemsSize]

end CompactSize

namespace TxInput

theorem length_encode (input : TxInput) : input.encode.length = input.size := by
  simp only [encode, size, List.length_append, Hash256.length_toBytes, Bytes.length_ofNat,
    CompactSize.length_encodeBytes]

theorem length_encodeWitness (input : TxInput) : input.encodeWitness.length = input.witnessSize :=
  CompactSize.length_encodeItems CompactSize.length_encodeBytes input.witness

end TxInput

theorem TxOutput.length_encode (output : TxOutput) : output.encode.length = output.size := by
  simp only [encode, size, List.length_append, Bytes.length_ofNat, CompactSize.length_encodeBytes]

namespace Transaction

variable (tx : Transaction)

/-- The transaction without its witnesses. -/
def stripped : Transaction :=
  { tx with inputs := tx.inputs.map TxInput.stripped }

theorem hasWitness_stripped : tx.stripped.hasWitness = false := by
  simp [hasWitness_eq_false_iff, stripped, TxInput.stripped]

theorem encodeWith_stripped : tx.stripped.encodeWith false = tx.encodeWith false := by
  simp only [encodeWith, stripped, Bool.false_and, TxInput.encodeItems_map_stripped, if_neg Bool.false_ne_true]

theorem encode_of_bare {tx : Transaction} (bare : tx.hasWitness = false) : tx.encode = tx.encodeWith false := by
  simp only [encode, encodeWith, bare, Bool.and_false]

theorem encode_stripped : tx.stripped.encode = tx.encodeWith false := by
  rw [encode_of_bare tx.hasWitness_stripped, encodeWith_stripped]

theorem length_encodeWith_false : (tx.encodeWith false).length = tx.baseSize := by
  simp only [encodeWith, baseSize, Bool.false_and, if_neg Bool.false_ne_true, List.length_append, List.length_nil,
    Bytes.length_ofNat, CompactSize.length_encodeItems TxInput.length_encode,
    CompactSize.length_encodeItems TxOutput.length_encode]

/-- The marker, the flag and the witnesses come on top. -/
theorem length_encode : tx.encode.length = tx.totalSize := by
  rw [totalSize]
  split
  next carried =>
    simp only [encode_of_hasWitness carried, witnessBody, baseSize, List.length_append, List.length_cons,
      Bytes.length_ofNat, CompactSize.length_encodeItems TxInput.length_encode,
      CompactSize.length_encodeItems TxOutput.length_encode, CompactSize.length_flatMap TxInput.length_encodeWitness]
    omega
  next bare => rw [encode_of_bare (Bool.eq_false_iff.mpr bare), length_encodeWith_false]

theorem baseSize_le_totalSize : tx.baseSize ≤ tx.totalSize := by
  unfold totalSize
  split <;> omega

end Transaction

namespace Block

variable (block : Block)

/-- The block with every witness taken out. -/
def stripped : Block :=
  { block with transactions := block.transactions.map Transaction.stripped }

theorem length_encode : block.encode.length = block.totalSize := by
  rw [encode, List.length_append, BlockHeader.length_encode, CompactSize.length_encodeItems Transaction.length_encode,
    totalSize]

theorem length_encode_stripped : block.stripped.encode.length = block.baseSize := by
  have sized : ∀ tx : Transaction, tx.stripped.encode.length = tx.baseSize := by
    intro tx
    rw [tx.encode_stripped, tx.length_encodeWith_false]
  have content := CompactSize.length_encodeItems sized block.transactions
  rw [baseSize, ← content]
  simp only [encode, stripped, CompactSize.encodeItems, List.length_append, List.length_map, List.flatMap_map,
    BlockHeader.length_encode]

theorem baseSize_le_totalSize : block.baseSize ≤ block.totalSize := by
  have content : CompactSize.contentSize Transaction.baseSize block.transactions ≤
      CompactSize.contentSize Transaction.totalSize block.transactions := by
    induction block.transactions with
    | nil => exact Nat.le_refl _
    | cons tx rest ih => exact Nat.add_le_add tx.baseSize_le_totalSize ih
  simp only [baseSize, totalSize, CompactSize.itemsSize]
  omega

end Block

/-- The sizes of transactions and blocks are the lengths of their bytes, with witnesses and without; the weight counts the
bytes outside witnesses four times and those of witnesses once. -/
theorem declared_sizes_are_lengths :
    (∀ tx : Transaction,
      tx.baseSize = (tx.encodeWith false).length ∧ tx.totalSize = (tx.encodeWith true).length ∧
      tx.weight = 3 * (tx.encodeWith false).length + (tx.encodeWith true).length ∧
      tx.baseSize ≤ tx.totalSize ∧ tx.totalSize ≤ tx.weight) ∧
    (∀ block : Block,
      block.totalSize = block.encode.length ∧ block.baseSize = block.stripped.encode.length ∧
      block.weight = 3 * block.stripped.encode.length + block.encode.length ∧
      block.baseSize ≤ block.totalSize ∧ block.totalSize ≤ block.weight) := by
  constructor
  · intro tx
    have base := tx.length_encodeWith_false
    have total : (tx.encodeWith true).length = tx.totalSize := tx.length_encode
    rw [base, total]
    refine ⟨rfl, rfl, ?weight, tx.baseSize_le_totalSize, Nat.le_add_left _ _⟩
    case weight => rw [Transaction.weight, Nat.mul_comm]
  · intro block
    rw [block.length_encode, block.length_encode_stripped]
    refine ⟨rfl, rfl, ?weight, block.baseSize_le_totalSize, Nat.le_add_left _ _⟩
    case weight => rw [Block.weight, Nat.mul_comm]

end Mintage
