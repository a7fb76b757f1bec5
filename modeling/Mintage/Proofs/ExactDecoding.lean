import Mintage.Proofs.ByteWords
import Mintage.Proofs.Sequencing
import Mintage.Wire.CompactSize

/-! A decoder is exact when it succeeds on the encodings of the values that it admits and on no other
bytes. The equivalences below say this of every reader that the wire formats are built from. -/

namespace Mintage
open Sequencing

/-- The bytes that lie between two positions in one input. -/
structure Cursor.Takes (before : Cursor) (bytes : Bytes) (after : Cursor) : Prop where
  rest : before.rest = bytes ++ after.rest
  offset : after.offset = before.offset + bytes.length

namespace Cursor

theorem takes_nil {before after : Cursor} : before.Takes [] after ↔ before = after := by
  constructor
  · intro taken
    obtain ⟨rest, offset⟩ := taken
    cases before
    cases after
    simp_all
  · intro same
    cases same
    exact ⟨rfl, rfl⟩

theorem takes_append {before after : Cursor} {first second : Bytes} :
    before.Takes (first ++ second) after ↔ ∃ between, before.Takes first between ∧ between.Takes second after := by
  constructor
  · intro taken
    obtain ⟨rest, offset⟩ := taken
    rw [List.append_assoc] at rest
    rw [List.length_append, ← Nat.add_assoc] at offset
    exact ⟨⟨second ++ after.rest, before.offset + first.length⟩, ⟨rest, rfl⟩, ⟨rfl, offset⟩⟩
  · intro taken
    obtain ⟨between, left, right⟩ := taken
    constructor
    · rw [left.rest, right.rest, List.append_assoc]
    · rw [right.offset, left.offset, List.length_append, Nat.add_assoc]

theorem takes_cons {before after : Cursor} {byte : UInt8} {bytes : Bytes} :
    before.Takes (byte :: bytes) after ↔ ∃ between, before.Takes [byte] between ∧ between.Takes bytes after :=
  @takes_append before after [byte] bytes

end Cursor

namespace Decoder

variable {α β : Type} {before after : Cursor}

def Exact (decoder : Decoder α) (admits : α → Prop) (encode : α → Bytes) : Prop :=
  ∀ before value after, decoder before = .ok value after ↔ admits value ∧ before.Takes (encode value) after

/-- A decoder that admits every value and converts what another one reads. -/
private theorem converted_eq_ok {decoder : Decoder α} {admits : α → Prop} {encode : α → Bytes}
    (exact : decoder.Exact admits encode) {convert : α → β} (restore : β → α)
    (restored : ∀ source, admits source → restore (convert source) = source)
    (converted : ∀ value, admits (restore value) ∧ convert (restore value) = value) {value : β} :
    (do return convert (← decoder)) before = .ok value after ↔ before.Takes (encode (restore value)) after := by
  simp only [run_bind_eq_ok, run_pure_eq_ok, exact _ _ _]
  constructor
  · intro run
    obtain ⟨source, between, ⟨admitted, taken⟩, same, reached⟩ := run
    cases same
    cases reached
    rw [restored source admitted]
    exact taken
  · intro taken
    exact ⟨restore value, after, ⟨(converted value).1, taken⟩, (converted value).2, rfl⟩

theorem bytes_eq_ok {count : Nat} {chunk : Bytes} :
    bytes count before = .ok chunk after ↔ chunk.length = count ∧ before.Takes chunk after := by
  simp only [bytes]
  constructor
  · intro run
    split at run
    next short => cases run
    next enough =>
      cases run
      have size : (before.rest.take count).length = count := by
        rw [List.length_take] at enough ⊢
        omega
      refine ⟨size, (List.take_append_drop count before.rest).symm, ?_⟩
      simp only [size]
  · intro run
    obtain ⟨size, rest, offset⟩ := run
    have first : before.rest.take count = chunk := by rw [rest, ← size, List.take_left]
    have last : before.rest.drop count = after.rest := by rw [rest, ← size, List.drop_left]
    rw [first, last, if_neg (by omega), ← size, ← offset]

theorem word_exact (width : Nat) : (word width).Exact (· < 256 ^ width) (Bytes.ofNat width) := by
  intro before value after
  simp only [word, run_bind_eq_ok, run_pure_eq_ok, bytes_eq_ok]
  constructor
  · intro run
    obtain ⟨chunk, between, ⟨size, taken⟩, same, reached⟩ := run
    cases same
    cases reached
    subst size
    exact ⟨Bytes.toNat_lt chunk, by rwa [Bytes.ofNat_toNat]⟩
  · intro run
    obtain ⟨small, taken⟩ := run
    refine ⟨_, after, ⟨Bytes.length_ofNat width value, taken⟩, ?_, rfl⟩
    rw [Bytes.toNat_ofNat, Nat.mod_eq_of_lt small]

theorem byte_eq_ok {value : UInt8} : byte before = .ok value after ↔ before.Takes [value] after := by
  have same : Bytes.ofNat 1 value.toNat = [value] := by simp [Bytes.ofNat]
  rw [← same]
  exact converted_eq_ok (word_exact 1) UInt8.toNat
    (fun source small => by simpa using Nat.mod_eq_of_lt small) (fun value => ⟨value.toNat_lt, by simp⟩)

theorem uint32_eq_ok {value : UInt32} :
    uint32 before = .ok value after ↔ before.Takes (Bytes.ofNat 4 value.toNat) after :=
  converted_eq_ok (word_exact 4) UInt32.toNat
    (fun source small => by simpa using Nat.mod_eq_of_lt small) (fun value => ⟨value.toNat_lt, by simp⟩)

theorem int32_eq_ok {value : Int32} :
    int32 before = .ok value after ↔ before.Takes (Bytes.ofNat 4 value.toUInt32.toNat) after :=
  converted_eq_ok (word_exact 4) (fun value : Int32 => value.toUInt32.toNat)
    (fun source small => by simpa using Nat.mod_eq_of_lt small)
    (fun value => ⟨value.toUInt32.toNat_lt, by simp⟩)

theorem int64_eq_ok {value : Int64} :
    int64 before = .ok value after ↔ before.Takes (Bytes.ofNat 8 value.toUInt64.toNat) after :=
  converted_eq_ok (word_exact 8) (fun value : Int64 => value.toUInt64.toNat)
    (fun source small => by simpa using Nat.mod_eq_of_lt small)
    (fun value => ⟨value.toUInt64.toNat_lt, by simp⟩)

theorem hash_eq_ok {value : Hash256} : hash before = .ok value after ↔ before.Takes value.toBytes after := by
  have exact : (bytes 32).Exact (·.length = 32) id := fun before value after => bytes_eq_ok
  exact converted_eq_ok exact Hash256.toBytes (fun source size => Hash256.toBytes_ofBytes size)
    (fun value => ⟨value.length_toBytes, value.ofBytes_toBytes⟩)

private theorem sizeWord_eq_ok {start width least value : Nat} :
    sizeWord start width least before = .ok value after ↔
      least ≤ value ∧ value < 256 ^ width ∧ before.Takes (Bytes.ofNat width value) after := by
  simp only [sizeWord, run_bind_eq_ok, run_guard_eq_ok, run_pure_eq_ok, word_exact width _ _ _]
  constructor
  · intro run
    obtain ⟨read, between, ⟨small, taken⟩, enough, same, reached⟩ := run
    cases same
    cases reached
    exact ⟨by omega, small, taken⟩
  · intro run
    obtain ⟨enough, small, taken⟩ := run
    exact ⟨value, after, ⟨small, taken⟩, by omega, rfl, rfl⟩

/-- A marker byte and the word behind it. -/
private theorem marked_eq_ok {start width least value marker : Nat} (isByte : marker < 256 ^ 1) :
    (∃ between, (marker < 256 ^ 1 ∧ before.Takes (Bytes.ofNat 1 marker) between) ∧
        sizeWord start width least between = .ok value after) ↔
      least ≤ value ∧ value < 256 ^ width ∧ before.Takes (UInt8.ofNat marker :: Bytes.ofNat width value) after := by
  rw [Cursor.takes_cons]
  constructor
  · intro run
    obtain ⟨between, ⟨-, first⟩, run⟩ := run
    obtain ⟨enough, small, taken⟩ := sizeWord_eq_ok.1 run
    exact ⟨enough, small, between, first, taken⟩
  · intro run
    obtain ⟨enough, small, between, first, taken⟩ := run
    exact ⟨between, ⟨isByte, first⟩, sizeWord_eq_ok.2 ⟨enough, small, taken⟩⟩

theorem takes_of_compactSize {value : Nat} (run : compactSize before = .ok value after) :
    value < 256 ^ 8 ∧ before.Takes (CompactSize.encode value) after := by
  simp only [compactSize, run_bind_eq_ok, run_get_eq_ok, word_exact 1 _ _ _] at run
  obtain ⟨start, same, ⟨first, second⟩, tag, between, ⟨isByte, marker⟩, run⟩ := run
  cases first
  cases second
  rw [CompactSize.encode]
  split at run
  next small =>
    obtain ⟨same, reached⟩ := run_pure_eq_ok.1 run
    cases same
    cases reached
    rw [if_pos small]
    exact ⟨by omega, marker⟩
  next large =>
    split at run
    next two =>
      cases two
      obtain ⟨least, bound, taken⟩ := (marked_eq_ok isByte).1 ⟨between, ⟨isByte, marker⟩, run⟩
      rw [if_neg (by omega), if_pos (by omega)]
      exact ⟨by omega, taken⟩
    next =>
      split at run
      next four =>
        cases four
        obtain ⟨least, bound, taken⟩ := (marked_eq_ok isByte).1 ⟨between, ⟨isByte, marker⟩, run⟩
        rw [if_neg (by omega), if_neg (by omega), if_pos (by omega)]
        exact ⟨by omega, taken⟩
      next =>
        have eight : tag = 0xff := by omega
        cases eight
        obtain ⟨least, bound, taken⟩ := (marked_eq_ok isByte).1 ⟨between, ⟨isByte, marker⟩, run⟩
        rw [if_neg (by omega), if_neg (by omega), if_neg (by omega)]
        exact ⟨bound, taken⟩

theorem compactSize_of_takes {value : Nat} (bound : value < 256 ^ 8)
    (taken : before.Takes (CompactSize.encode value) after) : compactSize before = .ok value after := by
  simp only [compactSize, run_bind_eq_ok, run_get_eq_ok, word_exact 1 _ _ _]
  unfold CompactSize.encode at taken
  split at taken
  next small =>
    refine ⟨before, before, ⟨rfl, rfl⟩, value, after, ⟨by omega, taken⟩, ?_⟩
    rw [if_pos small]
    rfl
  next =>
    split at taken
    next two =>
      exact ⟨before, before, ⟨rfl, rfl⟩, 0xfd, (marked_eq_ok (by decide)).2 ⟨by omega, by omega, taken⟩⟩
    next =>
      split at taken
      next four =>
        exact ⟨before, before, ⟨rfl, rfl⟩, 0xfe, (marked_eq_ok (by decide)).2 ⟨by omega, by omega, taken⟩⟩
      next =>
        exact ⟨before, before, ⟨rfl, rfl⟩, 0xff, (marked_eq_ok (by decide)).2 ⟨by omega, bound, taken⟩⟩

/-- The bounds of the three longer forms meet without overlap, so one form is left for each value. -/
theorem compactSize_eq_ok {value : Nat} :
    compactSize before = .ok value after ↔ value < 256 ^ 8 ∧ before.Takes (CompactSize.encode value) after := by
  constructor
  · exact takes_of_compactSize
  · intro both
    exact compactSize_of_takes both.1 both.2

theorem length_eq_ok {count : Nat} :
    length before = .ok count after ↔ count ≤ maxLength ∧ before.Takes (CompactSize.encode count) after := by
  simp only [length, run_bind_eq_ok, run_guard_eq_ok, run_pure_eq_ok, compactSize_eq_ok]
  constructor
  · intro run
    obtain ⟨read, between, ⟨small, taken⟩, allowed, same, reached⟩ := run
    cases same
    cases reached
    exact ⟨by omega, taken⟩
  · intro run
    obtain ⟨allowed, taken⟩ := run
    have small : count < 256 ^ 8 := Nat.lt_of_le_of_lt allowed (by decide)
    exact ⟨count, after, ⟨small, taken⟩, by omega, rfl, rfl⟩

theorem countedBytes_eq_ok {content : Bytes} :
    countedBytes before = .ok content after ↔
      content.length ≤ maxLength ∧ before.Takes (CompactSize.encodeBytes content) after := by
  simp only [countedBytes, run_bind_eq_ok, length_eq_ok, bytes_eq_ok, CompactSize.encodeBytes, Cursor.takes_append]
  constructor
  · intro run
    obtain ⟨count, between, ⟨allowed, announced⟩, size, taken⟩ := run
    cases size
    exact ⟨allowed, between, announced, taken⟩
  · intro run
    obtain ⟨allowed, between, announced, taken⟩ := run
    exact ⟨content.length, between, ⟨allowed, announced⟩, rfl, taken⟩

/-- Induction on the count: the items already read are a prefix of the answer. -/
private theorem itemsAfter_eq_ok {item : Decoder α} {admits : α → Prop} {encode : α → Bytes}
    (exact : item.Exact admits encode) {count : Nat} {read values : List α} :
    itemsAfter item count read before = .ok values after ↔
      ∃ rest, values = read.reverse ++ rest ∧ rest.length = count ∧ (∀ value ∈ rest, admits value) ∧
        before.Takes (rest.flatMap encode) after := by
  induction count generalizing before read with
  | zero =>
    simp only [itemsAfter, run_pure_eq_ok]
    constructor
    · intro run
      obtain ⟨same, reached⟩ := run
      exact ⟨[], by simp [same], rfl, by simp, Cursor.takes_nil.2 reached⟩
    · intro run
      obtain ⟨rest, same, none, -, taken⟩ := run
      cases List.eq_nil_of_length_eq_zero none
      exact ⟨by simp [same], Cursor.takes_nil.1 taken⟩
  | succ count ih =>
    simp only [itemsAfter, run_bind_eq_ok, exact _ _ _, ih]
    constructor
    · intro run
      obtain ⟨next, between, ⟨admitted, first⟩, rest, same, size, all, taken⟩ := run
      refine ⟨next :: rest, by simp [same], by simp [size], ?_, ?_⟩
      · exact List.forall_mem_cons.2 ⟨admitted, all⟩
      · rw [List.flatMap_cons]
        exact Cursor.takes_append.2 ⟨between, first, taken⟩
    · intro run
      obtain ⟨rest, same, size, all, taken⟩ := run
      cases rest with
      | nil => simp at size
      | cons next rest =>
        rw [List.flatMap_cons] at taken
        obtain ⟨between, first, taken⟩ := Cursor.takes_append.1 taken
        obtain ⟨admitted, all⟩ := List.forall_mem_cons.1 all
        exact ⟨next, between, ⟨admitted, first⟩, rest, by simp [same], by simpa using size, all, taken⟩

theorem counted_eq_ok {item : Decoder α} {admits : α → Prop} {encode : α → Bytes}
    (exact : item.Exact admits encode) {values : List α} :
    counted item before = .ok values after ↔
      (values.length ≤ maxLength ∧ ∀ value ∈ values, admits value) ∧
        before.Takes (CompactSize.encodeItems encode values) after := by
  simp only [counted, items, run_bind_eq_ok, length_eq_ok, itemsAfter_eq_ok exact, CompactSize.encodeItems,
    Cursor.takes_append]
  constructor
  · intro run
    obtain ⟨count, between, ⟨allowed, announced⟩, rest, same, size, all, taken⟩ := run
    cases same
    cases size
    exact ⟨⟨allowed, all⟩, between, announced, taken⟩
  · intro run
    obtain ⟨⟨allowed, all⟩, between, announced, taken⟩ := run
    exact ⟨values.length, between, ⟨allowed, announced⟩, values, rfl, rfl, all, taken⟩

namespace Exact

variable {decoder : Decoder α} {admits : α → Prop} {encode : α → Bytes} {value : α}

/-- Nothing after an encoding is looked at. -/
theorem reads (exact : decoder.Exact admits encode) (admitted : admits value) (offset : Nat) (rest : Bytes) :
    decoder ⟨encode value ++ rest, offset⟩ = .ok value ⟨rest, offset + (encode value).length⟩ :=
  (exact _ _ _).2 ⟨admitted, rfl, rfl⟩

theorem run_eq_ok (exact : decoder.Exact admits encode) {input : Bytes} :
    decoder.run input = .ok value ↔ admits value ∧ input = encode value := by
  constructor
  · intro success
    unfold run at success
    split at success
    next => cases success
    next result after reached =>
      obtain ⟨admitted, taken⟩ := (exact _ _ _).1 reached
      split at success
      next done =>
        cases success
        have whole := taken.rest
        rw [List.isEmpty_iff.1 done, List.append_nil] at whole
        exact ⟨admitted, whole⟩
      next => cases success
  · intro both
    obtain ⟨admitted, same⟩ := both
    have reached := exact.reads admitted 0 []
    rw [List.append_nil] at reached
    simp only [run, same, reached, List.isEmpty_nil, if_true]

theorem run_append (exact : decoder.Exact admits encode) (admitted : admits value) {rest : Bytes}
    (more : rest ≠ []) : decoder.run (encode value ++ rest) = .error (.trailingBytes rest.length) := by
  have left : ¬ rest.isEmpty = true := fun none => more (List.isEmpty_iff.1 none)
  simp only [run, exact.reads admitted 0 rest, if_neg left]

end Exact
end Decoder
end Mintage
