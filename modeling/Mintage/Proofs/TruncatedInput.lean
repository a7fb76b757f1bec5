import Mintage.Proofs.WireCodec

/-! Input that ends too early. A decoder takes its input from the front and never looks ahead, so more bytes behind the
input change nothing in its run, unless the run came to the end and wanted more. -/

namespace Mintage
open Sequencing

namespace Cursor

/-- The position behind the last byte of the input. -/
def stop (cursor : Cursor) : Nat :=
  cursor.offset + cursor.rest.length

/-- The same position in an input that goes on. -/
def extend (cursor : Cursor) (more : Bytes) : Cursor :=
  ⟨cursor.rest ++ more, cursor.offset⟩

/-- The second position is not before the first one and in the same input. -/
structure Precedes (before after : Cursor) : Prop where
  stop : after.stop = before.stop
  offset : before.offset ≤ after.offset

theorem Precedes.refl (cursor : Cursor) : cursor.Precedes cursor :=
  ⟨rfl, Nat.le_refl _⟩

theorem Precedes.trans {first second third : Cursor} (left : first.Precedes second) (right : second.Precedes third) :
    first.Precedes third :=
  ⟨right.stop.trans left.stop, Nat.le_trans left.offset right.offset⟩

theorem Takes.precedes {before after : Cursor} {bytes : Bytes} (taken : before.Takes bytes after) :
    before.Precedes after := by
  have rest := congrArg List.length taken.rest
  have offset := taken.offset
  rw [List.length_append] at rest
  exact ⟨by simp only [stop]; omega, by omega⟩

end Cursor

namespace Decoder

variable {α β : Type}

/-- A run that starts at `before`, next to the run on an input that goes on. The second does the same, except where the
first came to the end of its input within something that it needed. -/
inductive Continues (before : Cursor) (more : Bytes) :
    EStateM.Result DecodeError Cursor α → EStateM.Result DecodeError Cursor α → Prop where
  | ok {value : α} {after : Cursor} (forward : before.Precedes after) :
      Continues before more (.ok value after) (.ok value (after.extend more))
  | short {offset needed : Nat} {after : Cursor} {longer : EStateM.Result DecodeError Cursor α}
      (inside : offset ≤ before.stop) (missing : before.stop < offset + needed)
      (wanted : ∀ value reached, longer = .ok value reached → offset + needed ≤ reached.offset) :
      Continues before more (.error (.endOfData offset needed) after) longer
  | error {cause : DecodeError} {after : Cursor} :
      Continues before more (.error cause after) (.error cause (after.extend more))

theorem Continues.mono {before between : Cursor} {more : Bytes} {run longer : EStateM.Result DecodeError Cursor α}
    (forward : before.Precedes between) (continues : Continues between more run longer) :
    Continues before more run longer := by
  cases continues with
  | ok later => exact .ok (forward.trans later)
  | short inside missing wanted =>
    rw [forward.stop] at inside missing
    exact .short inside missing wanted
  | error => exact .error

/-- From every position, and however the input goes on. -/
def Incremental (decoder : Decoder α) : Prop :=
  ∀ before more, Continues before more (decoder before) (decoder (before.extend more))

namespace Incremental

variable {first : Decoder α} {next : α → Decoder β}

theorem precedes {decoder : Decoder α} (incremental : Incremental decoder) {before after : Cursor} {value : α}
    (run : decoder before = .ok value after) : before.Precedes after := by
  have continues := incremental before []
  rw [run] at continues
  generalize decoder (before.extend []) = longer at continues
  cases continues with
  | ok forward => exact forward

theorem pure (value : α) : Incremental (pure value : Decoder α) :=
  fun before _ => .ok (.refl before)

theorem throw (cause : DecodeError) : Incremental (throw cause : Decoder α) :=
  fun _ _ => .error

/-- A shortage in the first decoder is left behind only by a run on the longer input, which is further on then. -/
theorem bind (begins : Incremental first) (later : ∀ value, Incremental (next value)) : Incremental (first >>= next) := by
  intro before more
  have start := begins before more
  have resumed : ∀ value reached, (first >>= next) (before.extend more) = .ok value reached →
      ∃ middle between, first (before.extend more) = .ok middle between ∧ between.offset ≤ reached.offset := by
    intro value reached done
    obtain ⟨middle, between, begun, ended⟩ := run_bind_eq_ok.mp done
    exact ⟨middle, between, begun, ((later middle).precedes ended).offset⟩
  simp only [Bind.bind, EStateM.bind] at resumed ⊢
  generalize first before = run at start ⊢
  generalize first (before.extend more) = longer at start resumed ⊢
  cases start with
  | ok forward => exact (later _ _ more).mono forward
  | short inside missing wanted =>
    refine .short inside missing ?_
    intro value reached done
    obtain ⟨middle, between, begun, further⟩ := resumed value reached done
    exact Nat.le_trans (wanted middle between begun) further
  | error => exact .error

theorem ite {condition : Prop} [Decidable condition] {decoder other : Decoder α} (holds : Incremental decoder)
    (fails : Incremental other) : Incremental (if condition then decoder else other) := by
  split
  · exact holds
  · exact fails

/-- A check between two steps. -/
theorem guard {broken : Prop} [Decidable broken] {cause : DecodeError} {next : PUnit → Decoder α}
    (later : Incremental (next ⟨⟩)) :
    Incremental (if broken then (MonadExcept.throw cause : Decoder PUnit) >>= next else next ⟨⟩) := by
  intro before more
  split
  next => exact .error
  next => exact later before more

end Incremental

theorem incremental_bytes (count : Nat) : Incremental (bytes count) := by
  intro before more
  by_cases enough : count ≤ before.rest.length
  · have size : (before.rest.take count).length = count := List.length_take_of_le enough
    have taken : before.Takes (before.rest.take count) ⟨before.rest.drop count, before.offset + count⟩ :=
      ⟨(List.take_append_drop count before.rest).symm, by rw [size]⟩
    have longer : (before.extend more).Takes (before.rest.take count)
        ((⟨before.rest.drop count, before.offset + count⟩ : Cursor).extend more) := by
      refine ⟨?_, by rw [size]; rfl⟩
      rw [Cursor.extend, Cursor.extend, ← List.append_assoc, List.take_append_drop]
    rw [bytes_eq_ok.mpr ⟨size, taken⟩, bytes_eq_ok.mpr ⟨size, longer⟩]
    exact .ok taken.precedes
  · have short : bytes count before = .error (.endOfData before.offset count) before := by
      rw [bytes, if_pos (by rw [List.length_take]; omega)]
    rw [short]
    refine .short (Nat.le_add_right _ _) (by rw [Cursor.stop]; omega) ?_
    intro chunk reached done
    obtain ⟨size, taken⟩ := bytes_eq_ok.mp done
    rw [taken.offset, size]
    exact Nat.le_refl _

theorem incremental_word (width : Nat) : Incremental (word width) :=
  (incremental_bytes width).bind fun _ => .pure _

theorem incremental_byte : Incremental byte :=
  (incremental_word 1).bind fun _ => .pure _

theorem incremental_uint32 : Incremental uint32 :=
  (incremental_word 4).bind fun _ => .pure _

theorem incremental_int32 : Incremental int32 :=
  (incremental_word 4).bind fun _ => .pure _

theorem incremental_int64 : Incremental int64 :=
  (incremental_word 8).bind fun _ => .pure _

theorem incremental_hash : Incremental hash :=
  (incremental_bytes 32).bind fun _ => .pure _

theorem incremental_sizeWord (start width least : Nat) : Incremental (sizeWord start width least) :=
  (incremental_word width).bind fun _ => .guard (.pure _)

/-- The offset is the same with more bytes behind the input; the rest of the input is not, and is not asked for. -/
theorem incremental_compactSize : Incremental compactSize := by
  intro before more
  have body (start : Nat) : Incremental (do
      let tag ← word 1
      if tag < 0xfd then return tag
      if tag = 0xfd then sizeWord start 2 0xfd
      else if tag = 0xfe then sizeWord start 4 0x10000
      else sizeWord start 8 0x100000000) :=
    (incremental_word 1).bind fun tag => .ite (.pure tag)
      (.ite (incremental_sizeWord start 2 _) (.ite (incremental_sizeWord start 4 _) (incremental_sizeWord start 8 _)))
  exact body before.offset before more

theorem incremental_length : Incremental length :=
  incremental_compactSize.bind fun _ => .guard (.pure _)

theorem incremental_countedBytes : Incremental countedBytes :=
  incremental_length.bind incremental_bytes

theorem incremental_itemsAfter {item : Decoder α} (incremental : Incremental item) (count : Nat) (read : List α) :
    Incremental (itemsAfter item count read) := by
  induction count generalizing read with
  | zero => exact .pure _
  | succ count ih => exact incremental.bind fun next => ih (next :: read)

theorem incremental_counted {item : Decoder α} (incremental : Incremental item) : Incremental (counted item) :=
  incremental_length.bind fun count => incremental_itemsAfter incremental count []

/-- The longer run decides: it ends at the end of its input, so the shorter one can neither have ended before nor have
failed for a reason that the longer one would have met as well. -/
theorem Incremental.run_of_isPrefix {decoder : Decoder α} (incremental : Incremental decoder) {cut whole : Bytes} {value : α}
    (accepted : decoder.run whole = .ok value) (front : cut <+: whole) (strict : cut ≠ whole) :
    ∃ offset needed, decoder.run cut = .error (.endOfData offset needed) ∧
      offset ≤ cut.length ∧ cut.length < offset + needed ∧ offset + needed ≤ whole.length := by
  obtain ⟨more, rfl⟩ := front
  have left : more ≠ [] := by
    rintro rfl
    exact strict (List.append_nil cut).symm
  have continues := incremental ⟨cut, 0⟩ more
  obtain ⟨after, reached, finished⟩ : ∃ after, decoder ⟨cut ++ more, 0⟩ = .ok value after ∧ after.rest = [] := by
    unfold run at accepted
    split at accepted
    next => cases accepted
    next result after reached =>
      split at accepted
      next done =>
        cases accepted
        exact ⟨after, reached, List.isEmpty_iff.mp done⟩
      next => cases accepted
  have stop := (incremental.precedes reached).stop
  simp only [Cursor.stop, finished, List.length_nil, Nat.zero_add, Nat.add_zero] at stop
  rw [Cursor.extend, reached] at continues
  unfold run
  generalize decoder ⟨cut, 0⟩ = shorter at continues
  cases continues with
  | ok forward => exact absurd (List.append_eq_nil_iff.mp finished).2 left
  | short inside missing wanted =>
    simp only [Cursor.stop, Nat.zero_add] at inside missing
    exact ⟨_, _, rfl, inside, missing, stop ▸ wanted value after rfl⟩

end Decoder

open Decoder

theorem TxInput.incremental_decoder : Incremental TxInput.decoder :=
  incremental_hash.bind fun _ => incremental_uint32.bind fun _ => incremental_countedBytes.bind fun _ =>
    incremental_uint32.bind fun _ => .pure _

theorem TxInput.incremental_witnessed (input : TxInput) : Incremental input.witnessed :=
  (incremental_counted incremental_countedBytes).bind fun _ => .pure _

theorem TxOutput.incremental_decoder : Incremental TxOutput.decoder :=
  incremental_int64.bind fun _ => incremental_countedBytes.bind fun _ => .pure _

theorem BlockHeader.incremental_decoder : Incremental BlockHeader.decoder :=
  incremental_int32.bind fun _ => incremental_hash.bind fun _ => incremental_hash.bind fun _ =>
    incremental_uint32.bind fun _ => incremental_uint32.bind fun _ => incremental_uint32.bind fun _ => .pure _

namespace Transaction

theorem incremental_witnessSection (inputs : List TxInput) : Incremental (witnessSection inputs) := by
  have witnesses : Incremental (inputs.mapM TxInput.witnessed) := by
    induction inputs with
    | nil => exact .pure _
    | cons input rest ih =>
      rw [List.mapM_cons]
      exact input.incremental_witnessed.bind fun _ => ih.bind fun _ => .pure _
  exact witnesses.bind fun _ => .guard (.pure _)

theorem incremental_flaggedDecoder (version : Int32) : Incremental (flaggedDecoder version) := by
  apply incremental_byte.bind
  intro flag
  apply Incremental.ite
  case holds => exact incremental_uint32.bind fun _ => .pure _
  case fails =>
    apply (incremental_counted TxInput.incremental_decoder).bind
    intro inputs
    apply (incremental_counted TxOutput.incremental_decoder).bind
    intro outputs
    have last (inputs : List TxInput) : Incremental (do
        if flag &&& 0xfe ≠ 0 then throw (.unknownFlag (flag &&& 0xfe))
        return ({ version, inputs, outputs, lockTime := ← uint32 } : Transaction)) :=
      .guard (incremental_uint32.bind fun _ => .pure _)
    apply Incremental.ite
    case holds => exact (incremental_witnessSection inputs).bind last
    case fails => exact last inputs

theorem incremental_decoder : Incremental Transaction.decoder := by
  apply incremental_int32.bind
  intro version
  apply (incremental_counted TxInput.incremental_decoder).bind
  intro inputs
  apply Incremental.ite
  case holds => exact incremental_flaggedDecoder version
  case fails =>
    exact (incremental_counted TxOutput.incremental_decoder).bind fun _ => incremental_uint32.bind fun _ => .pure _

end Transaction

theorem Block.incremental_decoder : Incremental Block.decoder :=
  BlockHeader.incremental_decoder.bind fun _ => (incremental_counted Transaction.incremental_decoder).bind fun _ => .pure _

/-- Whatever is cut off the end of a transaction or a block that can be decoded, what is left is reported as too short: at a
position in it, for bytes that the whole has there and the rest has not. -/
theorem truncation_is_reported :
    (∀ (tx found : Transaction) (cut : Bytes), Transaction.decoder.run tx.encode = .ok found → cut <+: tx.encode →
      cut ≠ tx.encode → ∃ offset needed, Transaction.decoder.run cut = .error (.endOfData offset needed) ∧
        offset ≤ cut.length ∧ cut.length < offset + needed ∧ offset + needed ≤ tx.encode.length) ∧
    (∀ (block found : Block) (cut : Bytes), Block.decoder.run block.encode = .ok found → cut <+: block.encode →
      cut ≠ block.encode → ∃ offset needed, Block.decoder.run cut = .error (.endOfData offset needed) ∧
        offset ≤ cut.length ∧ cut.length < offset + needed ∧ offset + needed ≤ block.encode.length) := by
  constructor
  · intro tx found cut accepted front strict
    exact Transaction.incremental_decoder.run_of_isPrefix accepted front strict
  · intro block found cut accepted front strict
    exact Block.incremental_decoder.run_of_isPrefix accepted front strict

/-- The cut lies behind the flag, within the first of the hashes that an input begins with. -/
theorem cut_in_hash_is_reported :
    Transaction.decoder.run Transaction.withWitness.encode = .ok Transaction.withWitness ∧
      ∃ offset needed,
        Transaction.decoder.run (Transaction.withWitness.encode.take 20) = .error (.endOfData offset needed) ∧
          offset ≤ 20 ∧ 20 < offset + needed ∧ offset + needed ≤ Transaction.withWitness.encode.length := by
  have accepted : Transaction.decoder.run Transaction.withWitness.encode = .ok Transaction.withWitness :=
    Transaction.decoder_exact.run_eq_ok.mpr ⟨by decide, rfl⟩
  exact ⟨accepted, truncation_is_reported.1 _ _ _ accepted (List.take_prefix 20 _) (by decide)⟩

end Mintage
