import Mathlib.Data.List.Forall2
import Mintage.Proofs.EncodedSizes
import Mintage.Proofs.WitnessCommitments

/-! What the identifier of a transaction stands for. The bytes that it is the hash of say where each of their parts ends, in
a transaction without inputs as well, so they determine everything but the witnesses. -/

namespace Mintage

/-- No encoding is the beginning of another one, so bytes can start with one of them only. -/
structure SelfDelimiting {α : Type} (admits : α → Prop) (encode : α → Bytes) : Prop where
  cancel : ∀ {first second : α} {rest more : Bytes}, admits first → admits second →
    encode first ++ rest = encode second ++ more → first = second ∧ rest = more

namespace SelfDelimiting

variable {α : Type} {admits : α → Prop} {encode : α → Bytes}

theorem of_exact {decoder : Decoder α} (exact_ : decoder.Exact admits encode) : SelfDelimiting admits encode := by
  refine ⟨fun {first second rest more} firstAdmitted secondAdmitted same => ?_⟩
  have read := exact_.reads firstAdmitted 0 rest
  rw [same, exact_.reads secondAdmitted 0 more] at read
  simp only [EStateM.Result.ok.injEq, Cursor.mk.injEq] at read
  exact ⟨read.1.symm, read.2.1.symm⟩

/-- A decoder that admits every value. -/
theorem of_eq_ok (decoder : Decoder α)
    (total : ∀ before value after, decoder before = .ok value after ↔ before.Takes (encode value) after) :
    SelfDelimiting (fun _ => True) encode := by
  have exact_ : decoder.Exact (fun _ => True) encode := by
    intro before value after
    rw [true_and, total]
  exact of_exact exact_

theorem flatMap (delimits : SelfDelimiting admits encode) {first second : List α} {rest more : Bytes}
    (count : first.length = second.length) (firstAdmitted : ∀ item ∈ first, admits item)
    (secondAdmitted : ∀ item ∈ second, admits item)
    (same : first.flatMap encode ++ rest = second.flatMap encode ++ more) : first = second ∧ rest = more := by
  induction first generalizing second with
  | nil =>
    cases List.eq_nil_of_length_eq_zero count.symm
    exact ⟨rfl, same⟩
  | cons item items ih =>
    cases second with
    | nil => cases count
    | cons other others =>
      obtain ⟨itemAdmitted, itemsAdmitted⟩ := List.forall_mem_cons.mp firstAdmitted
      obtain ⟨otherAdmitted, othersAdmitted⟩ := List.forall_mem_cons.mp secondAdmitted
      rw [List.flatMap_cons, List.flatMap_cons, List.append_assoc, List.append_assoc] at same
      obtain ⟨rfl, later⟩ := delimits.cancel itemAdmitted otherAdmitted same
      obtain ⟨rfl, left⟩ := ih (Nat.succ.inj count) itemsAdmitted othersAdmitted later
      exact ⟨rfl, left⟩

end SelfDelimiting

namespace CompactSize

variable {α : Type} {admits : α → Prop} {encode : α → Bytes}

theorem selfDelimiting_encode : SelfDelimiting (· < 2 ^ 64) CompactSize.encode :=
  SelfDelimiting.of_exact fun _ _ _ => Decoder.compactSize_eq_ok

theorem selfDelimiting_encodeBytes : SelfDelimiting (·.length < 2 ^ 64) encodeBytes := by
  refine ⟨fun firstFits secondFits same => ?_⟩
  rw [encodeBytes, encodeBytes, List.append_assoc, List.append_assoc] at same
  obtain ⟨count, same⟩ := selfDelimiting_encode.cancel firstFits secondFits same
  exact List.append_inj same count

theorem selfDelimiting_encodeItems (delimits : SelfDelimiting admits encode) :
    SelfDelimiting (fun items : List α => items.length < 2 ^ 64 ∧ ∀ item ∈ items, admits item) (encodeItems encode) := by
  refine ⟨fun firstFits secondFits same => ?_⟩
  rw [encodeItems, encodeItems, List.append_assoc, List.append_assoc] at same
  obtain ⟨count, same⟩ := selfDelimiting_encode.cancel firstFits.1 secondFits.1 same
  exact delimits.flatMap count firstFits.2 secondFits.2 same

end CompactSize

theorem Hash256.selfDelimiting_toBytes : SelfDelimiting (fun _ => True) Hash256.toBytes :=
  SelfDelimiting.of_eq_ok Decoder.hash fun _ _ _ => Decoder.hash_eq_ok

private theorem selfDelimiting_uint32 : SelfDelimiting (fun _ => True) fun value : UInt32 => Bytes.ofNat 4 value.toNat :=
  SelfDelimiting.of_eq_ok Decoder.uint32 fun _ _ _ => Decoder.uint32_eq_ok

private theorem selfDelimiting_int32 :
    SelfDelimiting (fun _ => True) fun value : Int32 => Bytes.ofNat 4 value.toUInt32.toNat :=
  SelfDelimiting.of_eq_ok Decoder.int32 fun _ _ _ => Decoder.int32_eq_ok

private theorem selfDelimiting_int64 :
    SelfDelimiting (fun _ => True) fun value : Int64 => Bytes.ofNat 8 value.toUInt64.toNat :=
  SelfDelimiting.of_eq_ok Decoder.int64 fun _ _ _ => Decoder.int64_eq_ok

theorem TxInput.selfDelimiting_encode :
    SelfDelimiting (fun input : TxInput => input.scriptSig.length < 2 ^ 64 ∧ input.witness = []) TxInput.encode := by
  refine ⟨fun {first second rest more} ⟨firstFits, firstBare⟩ ⟨secondFits, secondBare⟩ same => ?_⟩
  simp only [encode, List.append_assoc] at same
  obtain ⟨txid, same⟩ := Hash256.selfDelimiting_toBytes.cancel trivial trivial same
  obtain ⟨index, same⟩ := selfDelimiting_uint32.cancel trivial trivial same
  obtain ⟨script, same⟩ := CompactSize.selfDelimiting_encodeBytes.cancel firstFits secondFits same
  obtain ⟨sequence, same⟩ := selfDelimiting_uint32.cancel trivial trivial same
  refine ⟨?_, same⟩
  obtain ⟨⟨_, _⟩, _, _, _⟩ := first
  obtain ⟨⟨_, _⟩, _, _, _⟩ := second
  cases txid
  cases index
  cases script
  cases sequence
  cases firstBare
  cases secondBare
  rfl

theorem TxOutput.selfDelimiting_encode :
    SelfDelimiting (fun output : TxOutput => output.script.length < 2 ^ 64) TxOutput.encode := by
  refine ⟨fun {first second rest more} firstFits secondFits same => ?_⟩
  simp only [encode, List.append_assoc] at same
  obtain ⟨value, same⟩ := selfDelimiting_int64.cancel trivial trivial same
  obtain ⟨script, same⟩ := CompactSize.selfDelimiting_encodeBytes.cancel firstFits secondFits same
  refine ⟨?_, same⟩
  cases first
  cases second
  cases value
  cases script
  rfl

/-- Equal in all that stands before the witness section. -/
@[mk_iff]
structure TxInput.SameButWitness (input other : TxInput) : Prop where
  previous : input.previous = other.previous
  scriptSig : input.scriptSig = other.scriptSig
  sequence : input.sequence = other.sequence

theorem TxInput.stripped_eq_iff {input other : TxInput} : input.stripped = other.stripped ↔ input.SameButWitness other := by
  cases input
  cases other
  simp only [sameButWitness_iff, stripped, TxInput.mk.injEq, and_true]

namespace Transaction

variable {tx other : Transaction}

/-- Equal in all but what the inputs carry as witnesses. -/
@[mk_iff]
structure SameButWitness (tx other : Transaction) : Prop where
  version : tx.version = other.version
  inputs : List.Forall₂ TxInput.SameButWitness tx.inputs other.inputs
  outputs : tx.outputs = other.outputs
  lockTime : tx.lockTime = other.lockTime

/-- Counts and scripts are no longer than a compact size can say. -/
structure LengthsFit (tx : Transaction) : Prop where
  inputs : tx.inputs.length < 2 ^ 64
  outputs : tx.outputs.length < 2 ^ 64
  scriptSigs : ∀ input ∈ tx.inputs, input.scriptSig.length < 2 ^ 64
  scripts : ∀ output ∈ tx.outputs, output.script.length < 2 ^ 64

theorem stripped_eq_iff : tx.stripped = other.stripped ↔ tx.SameButWitness other := by
  have inputs : tx.inputs.map TxInput.stripped = other.inputs.map TxInput.stripped ↔
      List.Forall₂ TxInput.SameButWitness tx.inputs other.inputs := by
    rw [← List.forall₂_eq_eq_eq, List.forall₂_map_left_iff, List.forall₂_map_right_iff]
    simp only [TxInput.stripped_eq_iff]
  cases tx
  cases other
  simp only [sameButWitness_iff, stripped, Transaction.mk.injEq, inputs]

theorem encodeWith_false_eq (tx : Transaction) :
    tx.encodeWith false = Bytes.ofNat 4 tx.version.toUInt32.toNat ++ tx.stripped.plainBody := by
  rw [← encode_stripped, encode_of_not_hasWitness tx.hasWitness_stripped]
  rfl

/-- The version and the lock time have fixed widths, and the lists between them announce their counts. -/
theorem stripped_eq_of_encodeWith_eq (fit : tx.LengthsFit) (otherFit : other.LengthsFit)
    (same : tx.encodeWith false = other.encodeWith false) : tx.stripped = other.stripped := by
  have inputsFit {tx : Transaction} (fit : tx.LengthsFit) : tx.stripped.inputs.length < 2 ^ 64 ∧
      ∀ input ∈ tx.stripped.inputs, input.scriptSig.length < 2 ^ 64 ∧ input.witness = [] := by
    refine ⟨by simpa only [stripped, List.length_map] using fit.inputs, ?_⟩
    intro input listed
    obtain ⟨whole, found, rfl⟩ := List.mem_map.mp listed
    exact ⟨fit.scriptSigs whole found, rfl⟩
  rw [encodeWith_false_eq, encodeWith_false_eq, plainBody, plainBody] at same
  obtain ⟨version, same⟩ := selfDelimiting_int32.cancel trivial trivial same
  obtain ⟨inputs, same⟩ :=
    (CompactSize.selfDelimiting_encodeItems TxInput.selfDelimiting_encode).cancel (inputsFit fit) (inputsFit otherFit) same
  obtain ⟨outputs, same⟩ := (CompactSize.selfDelimiting_encodeItems TxOutput.selfDelimiting_encode).cancel
    ⟨fit.outputs, fit.scripts⟩ ⟨otherFit.outputs, otherFit.scripts⟩ same
  obtain ⟨lockTime, -⟩ := selfDelimiting_uint32.cancel trivial trivial (congrArg (· ++ []) same)
  cases tx
  cases other
  cases version
  cases outputs
  cases lockTime
  simp only [stripped] at inputs ⊢
  rw [inputs]

theorem encodeWith_eq_iff (fit : tx.LengthsFit) (otherFit : other.LengthsFit) :
    tx.encodeWith false = other.encodeWith false ↔ tx.SameButWitness other := by
  rw [← stripped_eq_iff]
  constructor
  · exact stripped_eq_of_encodeWith_eq fit otherFit
  · intro same
    rw [← tx.encodeWith_stripped, same, other.encodeWith_stripped]

end Transaction

/-- Two messages with one hash. -/
def Collide (left right : Bytes) : Prop :=
  left ≠ right ∧ sha256d left = sha256d right

namespace Transaction

theorem isCoinstake_stripped (tx : Transaction) : tx.stripped.isCoinstake = tx.isCoinstake := by
  unfold isCoinstake stripped
  match tx.inputs, tx.outputs with
  | [], _ => rfl
  | _ :: _, [] => rfl
  | _ :: _, [_] => rfl
  | _ :: _, _ :: _ :: _ => rfl

theorem spent_stripped (tx : Transaction) : tx.stripped.spent = tx.spent := by
  have coinbase : tx.stripped.isCoinbase = tx.isCoinbase := tx.isCoinbase_witnessed []
  rw [spent, spent, coinbase, stripped, List.map_map]
  rfl

end Transaction

namespace Params

variable (params : Params)

theorem inputTotal_map_stripped (view : CoinView) (height : Nat) (inputs : List TxInput) (total : Amount) :
    params.inputTotal view height (inputs.map TxInput.stripped) total = params.inputTotal view height inputs total := by
  induction inputs generalizing total with
  | nil => rfl
  | cons input rest ih => simp only [List.map_cons, inputTotal, TxInput.stripped, ih]

/-- No rule reads a witness, and no entry of a view has one. -/
theorem apply_stripped (tx : Transaction) (height : Nat) : params.apply tx.stripped height = params.apply tx height := by
  have coinbase : tx.stripped.isCoinbase = tx.isCoinbase := tx.isCoinbase_witnessed []
  have txid : tx.stripped.txid = tx.txid := tx.txid_witnessed []
  funext view
  have fee : params.fee view tx.stripped height = params.fee view tx height := by
    have inputs := params.inputTotal_map_stripped view height tx.inputs 0
    simp only [fee, coinbase, tx.isCoinstake_stripped]
    simp only [Transaction.stripped, inputs]
    rfl
  have update : view.update tx.stripped height = view.update tx height := by
    simp only [CoinView.update_eq, CoinView.insert, Coins.ofTransaction, tx.spent_stripped, coinbase, txid,
      tx.isCoinstake_stripped]
    rfl
  rw [apply, apply, fee, update]

end Params

namespace Transaction

variable {tx other : Transaction}

theorem SameButWitness.apply_eq (same : tx.SameButWitness other) (params : Params) (height : Nat) :
    params.apply tx height = params.apply other height := by
  rw [← params.apply_stripped tx, ← params.apply_stripped other, stripped_eq_iff.mpr same]

/-- The bytes under an identifier leave nothing but witnesses open. So two transactions with one identifier differ in
their witnesses alone, where no rule and no coin view tells them apart, unless the hash collides on their bytes. -/
theorem txid_stands_for_all_but_witnesses (fit : tx.LengthsFit) (otherFit : other.LengthsFit) :
    (tx.encodeWith false = other.encodeWith false ↔ tx.SameButWitness other) ∧
    (tx.txid = other.txid ↔
      tx.SameButWitness other ∨ Collide (tx.encodeWith false) (other.encodeWith false)) ∧
    (tx.SameButWitness other → ∀ (params : Params) (height : Nat), params.apply tx height = params.apply other height) := by
  have bytes := encodeWith_eq_iff fit otherFit
  refine ⟨bytes, ?hash, ?rules⟩
  case hash =>
    rw [← bytes]
    constructor
    · intro named
      by_cases same : tx.encodeWith false = other.encodeWith false
      · exact .inl same
      · exact .inr ⟨same, named⟩
    · rintro (same | collision)
      · exact congrArg sha256d same
      · exact collision.2
  case rules =>
    intro same params height
    exact same.apply_eq params height

/-- A payment without inputs, whose bytes in full are those of a transaction with one input, a witness and no outputs. -/
def inputless : Transaction :=
  { outputs := [⟨1, List.replicate 34 0 ++ [1, 1, 7]⟩] }

def outputless : Transaction :=
  { inputs := [{ previous := ⟨⟨0x25 <<< 56⟩, 0⟩, sequence := 0, witness := [[7]] }] }

theorem inputless_differs_from_outputless :
    inputless.encode = outputless.encode ∧ inputless.encodeWith false ≠ outputless.encodeWith false := by
  have fit : inputless.LengthsFit := ⟨by decide, by decide, by decide, by decide⟩
  have otherFit : outputless.LengthsFit := ⟨by decide, by decide, by decide, by decide⟩
  have identity := txid_stands_for_all_but_witnesses fit otherFit
  refine ⟨by decide, ?_⟩
  intro same
  have outputs := (identity.1.mp same).outputs
  cases outputs

end Transaction
end Mintage
