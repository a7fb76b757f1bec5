import Mintage.Block
import Mintage.Proofs.ExactDecoding

/-! Transactions and blocks on the wire. A zero count of inputs also announces the form that carries
witnesses, so the proof follows the two forms apart: which of them a transaction is written in depends
on its witnesses alone, and each decoding path accepts the transactions of one form. -/

namespace Mintage
open Sequencing Decoder

namespace TxInput

/-- The input as it stands before the witness section. -/
def stripped (input : TxInput) : TxInput :=
  { input with witness := [] }

structure WitnessFits (input : TxInput) : Prop where
  count : input.witness.length ≤ maxLength
  items : ∀ item ∈ input.witness, item.length ≤ maxLength

structure Decodable (input : TxInput) : Prop where
  scriptSig : input.scriptSig.length ≤ maxLength
  witness : input.WitnessFits

instance (input : TxInput) : Decidable input.WitnessFits :=
  decidable_of_iff (input.witness.length ≤ maxLength ∧ ∀ item ∈ input.witness, item.length ≤ maxLength)
    ⟨fun fits => ⟨fits.1, fits.2⟩, fun fits => ⟨fits.count, fits.items⟩⟩

instance (input : TxInput) : Decidable input.Decodable :=
  decidable_of_iff (input.scriptSig.length ≤ maxLength ∧ input.WitnessFits)
    ⟨fun fits => ⟨fits.1, fits.2⟩, fun fits => ⟨fits.scriptSig, fits.witness⟩⟩

theorem stripped_of_witness_eq_nil {input : TxInput} (none : input.witness = []) : input.stripped = input := by
  cases input
  cases none
  rfl

theorem map_stripped_of_witness_eq_nil {inputs : List TxInput} (none : ∀ input ∈ inputs, input.witness = []) :
    inputs.map stripped = inputs := by
  rw [List.map_congr_left fun input listed => stripped_of_witness_eq_nil (none input listed), List.map_id']

/-- What the two passes over the inputs check together. -/
theorem forall_decodable_iff {inputs : List TxInput} :
    (∀ input ∈ inputs, input.Decodable) ↔
      (∀ input ∈ inputs.map stripped, input.scriptSig.length ≤ maxLength ∧ input.witness = []) ∧
        ∀ input ∈ inputs, input.WitnessFits := by
  rw [List.forall_mem_map]
  constructor
  · intro decodable
    exact ⟨fun input listed => ⟨(decodable input listed).scriptSig, rfl⟩,
      fun input listed => (decodable input listed).witness⟩
  · intro checked input listed
    exact ⟨(checked.1 input listed).1, checked.2 input listed⟩

theorem encodeItems_map_stripped (inputs : List TxInput) :
    CompactSize.encodeItems encode (inputs.map stripped) = CompactSize.encodeItems encode inputs := by
  rw [CompactSize.encodeItems, CompactSize.encodeItems, List.length_map, List.flatMap_map]
  rfl

/-- Before the witness section every witness is empty. -/
theorem decoder_exact :
    decoder.Exact (fun input => input.scriptSig.length ≤ maxLength ∧ input.witness = []) encode := by
  intro before input after
  simp only [decoder, encode, run_bind_eq_ok, run_pure_eq_ok, hash_eq_ok, uint32_eq_ok, countedBytes_eq_ok,
    Cursor.takes_append]
  constructor
  · intro run
    obtain ⟨txid, first, txidTaken, index, second, indexTaken, script, third, ⟨fits, scriptTaken⟩, sequence,
      last, sequenceTaken, same, reached⟩ := run
    cases same
    cases reached
    exact ⟨⟨fits, rfl⟩, third, ⟨second, ⟨first, txidTaken, indexTaken⟩, scriptTaken⟩, sequenceTaken⟩
  · intro run
    obtain ⟨⟨fits, none⟩, third, ⟨second, ⟨first, txidTaken, indexTaken⟩, scriptTaken⟩, sequenceTaken⟩ := run
    exact ⟨_, first, txidTaken, _, second, indexTaken, _, third, ⟨fits, scriptTaken⟩, _, after, sequenceTaken,
      stripped_of_witness_eq_nil none, rfl⟩

theorem witnessed_eq_ok {input found : TxInput} {before after : Cursor} :
    input.witnessed before = .ok found after ↔
      found.stripped = input.stripped ∧ found.WitnessFits ∧ before.Takes found.encodeWitness after := by
  have bytesExact : countedBytes.Exact (·.length ≤ maxLength) CompactSize.encodeBytes :=
    fun before value after => countedBytes_eq_ok
  simp only [witnessed, encodeWitness, run_bind_eq_ok, run_pure_eq_ok, counted_eq_ok bytesExact]
  constructor
  · intro run
    obtain ⟨witness, last, ⟨⟨count, items⟩, taken⟩, same, reached⟩ := run
    cases same
    cases reached
    exact ⟨rfl, ⟨count, items⟩, taken⟩
  · intro run
    obtain ⟨same, ⟨count, items⟩, taken⟩ := run
    refine ⟨found.witness, after, ⟨⟨count, items⟩, taken⟩, ?_, rfl⟩
    cases input
    cases found
    cases same
    rfl

theorem mapM_witnessed_eq_ok {inputs found : List TxInput} {before after : Cursor} :
    inputs.mapM witnessed before = .ok found after ↔
      found.map stripped = inputs.map stripped ∧ (∀ input ∈ found, input.WitnessFits) ∧
        before.Takes (found.flatMap encodeWitness) after := by
  induction inputs generalizing before found after with
  | nil =>
    simp only [List.mapM_nil, run_pure_eq_ok, List.map_nil, List.map_eq_nil_iff]
    constructor
    · intro run
      obtain ⟨same, reached⟩ := run
      cases same
      exact ⟨rfl, by simp, Cursor.takes_nil.2 reached⟩
    · intro run
      obtain ⟨none, -, taken⟩ := run
      cases none
      exact ⟨rfl, Cursor.takes_nil.1 taken⟩
  | cons input inputs ih =>
    simp only [List.mapM_cons, run_bind_eq_ok, run_pure_eq_ok, witnessed_eq_ok, ih]
    constructor
    · intro run
      obtain ⟨next, between, ⟨same, fits, first⟩, rest, last, ⟨others, allFit, taken⟩, listed, reached⟩ := run
      cases listed
      cases reached
      refine ⟨by simp only [List.map_cons, same, others], List.forall_mem_cons.2 ⟨fits, allFit⟩, ?_⟩
      rw [List.flatMap_cons]
      exact Cursor.takes_append.2 ⟨between, first, taken⟩
    · intro run
      obtain ⟨same, allFit, taken⟩ := run
      cases found with
      | nil => cases same
      | cons next rest =>
        obtain ⟨head, others⟩ := List.cons.inj same
        obtain ⟨fits, allFit⟩ := List.forall_mem_cons.1 allFit
        rw [List.flatMap_cons] at taken
        obtain ⟨between, first, taken⟩ := Cursor.takes_append.1 taken
        exact ⟨next, between, ⟨head, fits, first⟩, rest, after, ⟨others, allFit, taken⟩, rfl, rfl⟩

end TxInput

theorem TxOutput.decoder_exact : TxOutput.decoder.Exact (·.script.length ≤ maxLength) TxOutput.encode := by
  intro before output after
  simp only [decoder, encode, run_bind_eq_ok, run_pure_eq_ok, int64_eq_ok, countedBytes_eq_ok, Cursor.takes_append]
  constructor
  · intro run
    obtain ⟨value, between, valueTaken, script, last, ⟨fits, scriptTaken⟩, same, reached⟩ := run
    cases same
    cases reached
    exact ⟨fits, between, valueTaken, scriptTaken⟩
  · intro run
    obtain ⟨fits, between, valueTaken, scriptTaken⟩ := run
    exact ⟨_, between, valueTaken, _, after, ⟨fits, scriptTaken⟩, rfl, rfl⟩

theorem BlockHeader.decoder_exact : BlockHeader.decoder.Exact (fun _ => True) BlockHeader.encode := by
  intro before header after
  simp only [decoder, encode, run_bind_eq_ok, run_pure_eq_ok, int32_eq_ok, hash_eq_ok, uint32_eq_ok,
    Cursor.takes_append, true_and]
  constructor
  · intro run
    obtain ⟨version, first, versionTaken, previous, second, previousTaken, root, third, rootTaken, time, fourth,
      timeTaken, bits, fifth, bitsTaken, nonce, last, nonceTaken, same, reached⟩ := run
    cases same
    cases reached
    exact ⟨fifth, ⟨fourth, ⟨third, ⟨second, ⟨first, versionTaken, previousTaken⟩, rootTaken⟩, timeTaken⟩, bitsTaken⟩,
      nonceTaken⟩
  · intro run
    obtain ⟨fifth, ⟨fourth, ⟨third, ⟨second, ⟨first, versionTaken, previousTaken⟩, rootTaken⟩, timeTaken⟩, bitsTaken⟩,
      nonceTaken⟩ := run
    exact ⟨_, first, versionTaken, _, second, previousTaken, _, third, rootTaken, _, fourth, timeTaken, _, fifth,
      bitsTaken, _, after, nonceTaken, rfl, rfl⟩

namespace Transaction

structure Decodable (tx : Transaction) : Prop where
  inputCount : tx.inputs.length ≤ maxLength
  outputCount : tx.outputs.length ≤ maxLength
  inputs : ∀ input ∈ tx.inputs, input.Decodable
  outputs : ∀ output ∈ tx.outputs, output.script.length ≤ maxLength
  shape : tx.inputs ≠ [] ∨ tx.outputs = []

instance (tx : Transaction) : Decidable tx.Decodable :=
  decidable_of_iff
    (tx.inputs.length ≤ maxLength ∧ tx.outputs.length ≤ maxLength ∧ (∀ input ∈ tx.inputs, input.Decodable) ∧
      (∀ output ∈ tx.outputs, output.script.length ≤ maxLength) ∧ (tx.inputs ≠ [] ∨ tx.outputs = []))
    ⟨fun fits => ⟨fits.1, fits.2.1, fits.2.2.1, fits.2.2.2.1, fits.2.2.2.2⟩,
      fun fits => ⟨fits.inputCount, fits.outputCount, fits.inputs, fits.outputs, fits.shape⟩⟩

/-- What follows the version in the form without witnesses. -/
def plainBody (tx : Transaction) : Bytes :=
  CompactSize.encodeItems TxInput.encode tx.inputs ++
    (CompactSize.encodeItems TxOutput.encode tx.outputs ++ Bytes.ofNat 4 tx.lockTime.toNat)

/-- What follows the zero count and the flag in the form with witnesses. -/
def witnessBody (tx : Transaction) : Bytes :=
  CompactSize.encodeItems TxInput.encode tx.inputs ++
    (CompactSize.encodeItems TxOutput.encode tx.outputs ++
      (tx.inputs.flatMap TxInput.encodeWitness ++ Bytes.ofNat 4 tx.lockTime.toNat))

theorem encode_of_not_hasWitness {tx : Transaction} (without : tx.hasWitness = false) :
    tx.encode = Bytes.ofNat 4 tx.version.toUInt32.toNat ++ tx.plainBody := by
  simp [encode, encodeWith, plainBody, without]

theorem encode_of_hasWitness {tx : Transaction} (carried : tx.hasWitness = true) :
    tx.encode = Bytes.ofNat 4 tx.version.toUInt32.toNat ++ 0 :: 1 :: tx.witnessBody := by
  simp [encode, encodeWith, witnessBody, carried]

theorem hasWitness_eq_false_iff {tx : Transaction} :
    tx.hasWitness = false ↔ ∀ input ∈ tx.inputs, input.witness = [] := by
  simp [hasWitness]

theorem hasWitness_eq_true_iff {tx : Transaction} :
    tx.hasWitness = true ↔ ¬ ∀ input ∈ tx.inputs, input.witness = [] := by
  rw [← hasWitness_eq_false_iff, Bool.not_eq_false]

/-- The section gives back inputs that differ from the given ones in their witnesses only. -/
theorem witnessSection_eq_ok {inputs found : List TxInput} {before after : Cursor}
    (plain : ∀ input ∈ inputs, input.witness = []) :
    witnessSection inputs before = .ok found after ↔
      found.map TxInput.stripped = inputs ∧ (∀ input ∈ found, input.WitnessFits) ∧
        (¬ ∀ input ∈ found, input.witness = []) ∧ before.Takes (found.flatMap TxInput.encodeWitness) after := by
  simp only [witnessSection, run_bind_eq_ok, run_guard_eq_ok, run_pure_eq_ok, TxInput.mapM_witnessed_eq_ok,
    List.all_eq_true, List.isEmpty_iff, TxInput.map_stripped_of_witness_eq_nil plain]
  constructor
  · intro run
    obtain ⟨read, last, ⟨same, fit, taken⟩, carries, listed, reached⟩ := run
    cases listed
    cases reached
    exact ⟨same, fit, carries, taken⟩
  · intro run
    obtain ⟨same, fit, carries, taken⟩ := run
    exact ⟨found, after, ⟨same, fit, taken⟩, carries, rfl, rfl⟩

/-- Of the flags that announce anything only one has no bit besides the lowest. -/
private theorem flag_eq_one {flag : UInt8} (announced : flag ≠ 0) (known : flag &&& 0xfe = 0) : flag = 1 := by
  have checked : ∀ bits : BitVec 8, bits ≠ 0 → bits &&& 0xfe = 0 → bits = 1 := by decide
  apply UInt8.toBitVec_inj.1
  apply checked
  · intro zero
    exact announced (UInt8.toBitVec_inj.1 zero)
  · rw [← UInt8.toBitVec_and]
    exact congrArg UInt8.toBitVec known

theorem of_flaggedDecoder {version : Int32} {tx : Transaction} {before after : Cursor}
    (run : flaggedDecoder version before = .ok tx after) :
    tx.version = version ∧
      ((tx.inputs = [] ∧ tx.outputs = [] ∧ before.Takes (0 :: Bytes.ofNat 4 tx.lockTime.toNat) after) ∨
        tx.Decodable ∧ tx.hasWitness = true ∧ before.Takes (1 :: tx.witnessBody) after) := by
  simp only [flaggedDecoder, run_bind_eq_ok, byte_eq_ok] at run
  obtain ⟨flag, first, flagTaken, run⟩ := run
  split at run
  next zero =>
    simp only [run_bind_eq_ok, run_pure_eq_ok, uint32_eq_ok] at run
    obtain ⟨lockTime, last, lockTaken, same, reached⟩ := run
    cases zero
    cases same
    cases reached
    exact ⟨rfl, .inl ⟨rfl, rfl, Cursor.takes_cons.2 ⟨first, flagTaken, lockTaken⟩⟩⟩
  next announced =>
    simp only [run_bind_eq_ok, counted_eq_ok TxInput.decoder_exact, counted_eq_ok TxOutput.decoder_exact] at run
    obtain ⟨plain, second, ⟨⟨inputCount, plainFits⟩, plainTaken⟩, outputs, third, ⟨⟨outputCount, outputsFit⟩,
      outputsTaken⟩, run⟩ := run
    split at run
    next carried =>
      simp only [run_bind_eq_ok, run_guard_eq_ok, run_pure_eq_ok, uint32_eq_ok] at run
      obtain ⟨inputs, fourth, witnesses, known, lockTime, last, lockTaken, whole, reached⟩ := run
      obtain ⟨same, fit, carries, witnessTaken⟩ :=
        (witnessSection_eq_ok fun input listed => (plainFits input listed).2).1 witnesses
      have one := flag_eq_one announced (Decidable.not_not.1 known)
      cases one
      cases same
      cases whole
      cases reached
      rw [List.length_map] at inputCount
      rw [TxInput.encodeItems_map_stripped] at plainTaken
      have nonempty : inputs ≠ [] := by
        intro none
        exact carries (by simp [none])
      refine ⟨rfl, .inr ⟨⟨inputCount, outputCount, TxInput.forall_decodable_iff.2 ⟨plainFits, fit⟩, outputsFit,
        .inl nonempty⟩, hasWitness_eq_true_iff.2 carries, Cursor.takes_cons.2 ⟨first, flagTaken, ?_⟩⟩⟩
      simp only [witnessBody, Cursor.takes_append]
      exact ⟨second, plainTaken, third, outputsTaken, fourth, witnessTaken, lockTaken⟩
    next other =>
      simp only [run_bind_eq_ok, run_guard_eq_ok] at run
      obtain ⟨-, -, -, known, -⟩ := run
      have one := flag_eq_one announced (Decidable.not_not.1 known)
      cases one
      exact absurd (by decide) other

theorem flaggedDecoder_of_empty {tx : Transaction} {before after : Cursor} (noInputs : tx.inputs = [])
    (noOutputs : tx.outputs = []) (taken : before.Takes (0 :: Bytes.ofNat 4 tx.lockTime.toNat) after) :
    flaggedDecoder tx.version before = .ok tx after := by
  obtain ⟨first, flagTaken, lockTaken⟩ := Cursor.takes_cons.1 taken
  simp only [flaggedDecoder, run_bind_eq_ok, byte_eq_ok]
  refine ⟨0, first, flagTaken, ?_⟩
  simp only [if_true, run_bind_eq_ok, run_pure_eq_ok, uint32_eq_ok]
  refine ⟨tx.lockTime, after, lockTaken, ?_, rfl⟩
  cases tx
  cases noInputs
  cases noOutputs
  rfl

theorem flaggedDecoder_of_hasWitness {tx : Transaction} {before after : Cursor} (decodable : tx.Decodable)
    (carried : tx.hasWitness = true) (taken : before.Takes (1 :: tx.witnessBody) after) :
    flaggedDecoder tx.version before = .ok tx after := by
  obtain ⟨first, flagTaken, bodyTaken⟩ := Cursor.takes_cons.1 taken
  simp only [witnessBody, Cursor.takes_append] at bodyTaken
  obtain ⟨second, plainTaken, third, outputsTaken, fourth, witnessTaken, lockTaken⟩ := bodyTaken
  obtain ⟨plainFits, fit⟩ := TxInput.forall_decodable_iff.1 decodable.inputs
  rw [← TxInput.encodeItems_map_stripped] at plainTaken
  have inputCount : (tx.inputs.map TxInput.stripped).length ≤ maxLength := by
    rw [List.length_map]
    exact decodable.inputCount
  have witnesses : witnessSection (tx.inputs.map TxInput.stripped) third = .ok tx.inputs fourth :=
    (witnessSection_eq_ok fun input listed => (plainFits input listed).2).2
      ⟨rfl, fit, hasWitness_eq_true_iff.1 carried, witnessTaken⟩
  have announced : ¬ (1 : UInt8) = 0 := by decide
  have lowest : (1 : UInt8) &&& 1 = 1 := by decide
  have known : ¬ (1 : UInt8) &&& 0xfe ≠ 0 := by decide
  simp only [flaggedDecoder, run_bind_eq_ok, byte_eq_ok]
  refine ⟨1, first, flagTaken, ?_⟩
  simp only [if_neg announced, if_pos lowest, run_bind_eq_ok, run_guard_eq_ok, run_pure_eq_ok, uint32_eq_ok,
    counted_eq_ok TxInput.decoder_exact, counted_eq_ok TxOutput.decoder_exact]
  exact ⟨_, second, ⟨⟨inputCount, plainFits⟩, plainTaken⟩, tx.outputs, third,
    ⟨⟨decodable.outputCount, decodable.outputs⟩, outputsTaken⟩, tx.inputs, fourth, witnesses, known, tx.lockTime,
    after, lockTaken, rfl, rfl⟩

theorem of_decoder {tx : Transaction} {before after : Cursor} (run : Transaction.decoder before = .ok tx after) :
    tx.Decodable ∧ before.Takes tx.encode after := by
  simp only [decoder, run_bind_eq_ok, int32_eq_ok, counted_eq_ok TxInput.decoder_exact] at run
  obtain ⟨version, first, versionTaken, plain, second, ⟨⟨inputCount, plainFits⟩, plainTaken⟩, run⟩ := run
  split at run
  next empty =>
    rw [List.isEmpty_iff] at empty
    cases empty
    obtain ⟨same, ⟨noInputs, noOutputs, taken⟩ | ⟨decodable, carried, taken⟩⟩ := of_flaggedDecoder run
    · have without : tx.hasWitness = false := hasWitness_eq_false_iff.2 (by simp [noInputs])
      refine ⟨⟨by simp [noInputs], by simp [noOutputs], by simp [noInputs], by simp [noOutputs], .inr noOutputs⟩, ?_⟩
      rw [encode_of_not_hasWitness without, plainBody, noInputs, noOutputs, same]
      exact Cursor.takes_append.2 ⟨first, versionTaken, Cursor.takes_append.2 ⟨second, plainTaken, taken⟩⟩
    · refine ⟨decodable, ?_⟩
      rw [encode_of_hasWitness carried, same]
      exact Cursor.takes_append.2 ⟨first, versionTaken, Cursor.takes_cons.2 ⟨second, plainTaken, taken⟩⟩
  next nonempty =>
    simp only [run_bind_eq_ok, run_pure_eq_ok, uint32_eq_ok, counted_eq_ok TxOutput.decoder_exact] at run
    obtain ⟨outputs, third, ⟨⟨outputCount, outputsFit⟩, outputsTaken⟩, lockTime, last, lockTaken, same, reached⟩ := run
    cases same
    cases reached
    have without : ∀ input ∈ plain, input.witness = [] := fun input listed => (plainFits input listed).2
    have fits : ∀ input ∈ plain, input.Decodable := by
      intro input listed
      obtain ⟨script, none⟩ := plainFits input listed
      exact ⟨script, by simp [none], by simp [none]⟩
    refine ⟨⟨inputCount, outputCount, fits, outputsFit, .inl (by simpa using nonempty)⟩, ?_⟩
    rw [encode_of_not_hasWitness (hasWitness_eq_false_iff.2 without)]
    simp only [plainBody, Cursor.takes_append]
    exact ⟨first, versionTaken, second, plainTaken, third, outputsTaken, lockTaken⟩

/-- Three shapes cover the decodable transactions: those with witnesses take the flagged path, those
without either have inputs or consist of two zero counts, of which the second is read as the flag. -/
theorem decoder_of_decodable {tx : Transaction} {before after : Cursor} (decodable : tx.Decodable)
    (taken : before.Takes tx.encode after) : Transaction.decoder before = .ok tx after := by
  simp only [decoder, run_bind_eq_ok, int32_eq_ok, counted_eq_ok TxInput.decoder_exact]
  cases carried : tx.hasWitness with
  | true =>
    rw [encode_of_hasWitness carried] at taken
    obtain ⟨first, versionTaken, taken⟩ := Cursor.takes_append.1 taken
    obtain ⟨second, plainTaken, taken⟩ := Cursor.takes_cons.1 taken
    exact ⟨tx.version, first, versionTaken, [], second, ⟨⟨by simp, by simp⟩, plainTaken⟩,
      flaggedDecoder_of_hasWitness decodable carried taken⟩
  | false =>
    rw [encode_of_not_hasWitness carried] at taken
    simp only [plainBody, Cursor.takes_append] at taken
    obtain ⟨first, versionTaken, second, plainTaken, third, outputsTaken, lockTaken⟩ := taken
    have plainFits : ∀ input ∈ tx.inputs, input.scriptSig.length ≤ maxLength ∧ input.witness = [] := by
      intro input listed
      exact ⟨(decodable.inputs input listed).scriptSig, hasWitness_eq_false_iff.1 carried input listed⟩
    refine ⟨tx.version, first, versionTaken, tx.inputs, second, ⟨⟨decodable.inputCount, plainFits⟩, plainTaken⟩, ?_⟩
    split
    next empty =>
      rw [List.isEmpty_iff] at empty
      have noOutputs := decodable.shape.resolve_left (not_not_intro empty)
      rw [noOutputs] at outputsTaken
      apply flaggedDecoder_of_empty empty noOutputs
      exact Cursor.takes_cons.2 ⟨third, outputsTaken, lockTaken⟩
    next nonempty =>
      simp only [run_bind_eq_ok, run_pure_eq_ok, uint32_eq_ok, counted_eq_ok TxOutput.decoder_exact]
      exact ⟨tx.outputs, third, ⟨⟨decodable.outputCount, decodable.outputs⟩, outputsTaken⟩, tx.lockTime, after,
        lockTaken, rfl, rfl⟩

theorem decoder_exact : Transaction.decoder.Exact Decodable encode := by
  intro before tx after
  constructor
  · exact of_decoder
  · intro both
    exact decoder_of_decodable both.1 both.2

end Transaction

namespace Block

structure Decodable (block : Block) : Prop where
  count : block.transactions.length ≤ maxLength
  transactions : ∀ tx ∈ block.transactions, tx.Decodable

theorem decoder_exact : Block.decoder.Exact Decodable encode := by
  intro before block after
  simp only [decoder, encode, run_bind_eq_ok, run_pure_eq_ok, BlockHeader.decoder_exact _ _ _,
    counted_eq_ok Transaction.decoder_exact, Cursor.takes_append]
  constructor
  · intro run
    obtain ⟨header, first, ⟨-, headerTaken⟩, transactions, last, ⟨⟨count, all⟩, taken⟩, same, reached⟩ := run
    cases same
    cases reached
    exact ⟨⟨count, all⟩, first, headerTaken, taken⟩
  · intro both
    obtain ⟨decodable, first, headerTaken, taken⟩ := both
    exact ⟨block.header, first, ⟨trivial, headerTaken⟩, block.transactions, after,
      ⟨⟨decodable.count, decodable.transactions⟩, taken⟩, rfl, rfl⟩

end Block

/-- Decoding and encoding are inverse to each other on the decodable values, no byte string stands for
a value in a second way, and what follows an encoding is left as it is. -/
theorem wire_codec_exact :
    (∀ input tx, Transaction.decoder.run input = .ok tx ↔ tx.Decodable ∧ input = tx.encode) ∧
    (∀ input block, Block.decoder.run input = .ok block ↔ block.Decodable ∧ input = block.encode) ∧
    (∀ tx : Transaction, tx.Decodable → ∀ (suffix : Bytes) (offset : Nat),
      Transaction.decoder ⟨tx.encode ++ suffix, offset⟩ = .ok tx ⟨suffix, offset + tx.encode.length⟩ ∧
        (suffix ≠ [] → Transaction.decoder.run (tx.encode ++ suffix) = .error (.trailingBytes suffix.length))) ∧
    (∀ block : Block, block.Decodable → ∀ (suffix : Bytes) (offset : Nat),
      Block.decoder ⟨block.encode ++ suffix, offset⟩ = .ok block ⟨suffix, offset + block.encode.length⟩ ∧
        (suffix ≠ [] → Block.decoder.run (block.encode ++ suffix) = .error (.trailingBytes suffix.length))) := by
  refine ⟨?transactions, ?blocks, ?transactionReads, ?blockReads⟩
  case transactions =>
    intro input tx
    exact Transaction.decoder_exact.run_eq_ok
  case blocks =>
    intro input block
    exact Block.decoder_exact.run_eq_ok
  case transactionReads =>
    intro tx decodable suffix offset
    exact ⟨Transaction.decoder_exact.reads decodable offset suffix, Transaction.decoder_exact.run_append decodable⟩
  case blockReads =>
    intro block decodable suffix offset
    exact ⟨Block.decoder_exact.reads decodable offset suffix, Block.decoder_exact.run_append decodable⟩

/-- One input with a witness of one byte. -/
def Transaction.withWitness : Transaction :=
  ⟨2, [⟨⟨.zero, 0⟩, [], 0, [[7]]⟩], [⟨5, [0x51]⟩], 0⟩

theorem withWitness_leaves_suffix :
    Transaction.withWitness.Decodable ∧
      Transaction.decoder ⟨Transaction.withWitness.encode ++ [0xff], 0⟩ =
        .ok Transaction.withWitness ⟨[0xff], 0 + Transaction.withWitness.encode.length⟩ ∧
      Transaction.decoder.run (Transaction.withWitness.encode ++ [0xff]) = .error (.trailingBytes 1) := by
  have decodable : Transaction.withWitness.Decodable := by decide
  obtain ⟨reads, trailing⟩ := wire_codec_exact.2.2.1 Transaction.withWitness decodable [0xff] 0
  exact ⟨decodable, reads, trailing (by decide)⟩

end Mintage
