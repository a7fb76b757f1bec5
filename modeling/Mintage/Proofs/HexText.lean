import Mintage.Proofs.ByteWords
import Mintage.Wire.Decoder

/-! Hexadecimal text as it is written reads back. Its digits are ASCII and none of them is a blank, so neither the
encoding of the text nor the trimming in front of a decoder gets in the way. -/

namespace Mintage

theorem Text.trim_ofList {chars : List Char} (plain : ∀ c ∈ chars, isBlank c = false) :
    trim (String.ofList chars) = String.ofList chars := by
  have kept (text : List Char) (plain : ∀ c ∈ text, isBlank c = false) : text.dropWhile isBlank = text := by
    cases text with
    | nil => rfl
    | cons c rest => rw [List.dropWhile_cons_of_neg (by simp [plain])]
  have reversed : ∀ c ∈ chars.reverse, isBlank c = false := by
    intro c listed
    exact plain c (List.mem_reverse.mp listed)
  rw [trim, String.toList_ofList, kept chars plain, kept chars.reverse reversed, List.reverse_reverse]

namespace Hex

theorem digit_reads : ∀ value < 16, digitValue (Bytes.ofChar (digit value)) = some value := by
  decide

theorem digit_plain : ∀ value < 16, (digit value).val ≤ 127 ∧ Text.isBlank (digit value) = false := by
  decide

private theorem high_lt (byte : UInt8) : byte.toNat / 16 < 16 :=
  Nat.div_lt_of_lt_mul byte.toNat_lt

private theorem low_lt (byte : UInt8) : byte.toNat % 16 < 16 :=
  Nat.mod_lt _ (by decide)

theorem plain_of_mem_digits {bytes : Bytes} {c : Char} (listed : c ∈ bytes.flatMap digits) :
    c.val ≤ 127 ∧ Text.isBlank c = false := by
  obtain ⟨byte, _, written⟩ := List.mem_flatMap.mp listed
  simp only [digits, List.mem_cons, List.not_mem_nil, or_false] at written
  obtain rfl | rfl := written
  · exact digit_plain _ (high_lt byte)
  · exact digit_plain _ (low_lt byte)

theorem ofString_encode (bytes : Bytes) :
    Bytes.ofString (encode bytes) = bytes.flatMap fun byte => (digits byte).map Bytes.ofChar := by
  rw [encode, Bytes.ofString_ofList fun c listed => (plain_of_mem_digits listed).1, List.map_flatMap]

theorem trim_encode (bytes : Bytes) : Text.trim (encode bytes) = encode bytes :=
  Text.trim_ofList fun _ listed => (plain_of_mem_digits listed).2

private theorem decodePairs_digits_append (byte : UInt8) (rest read : Bytes) (position : Nat) :
    decodePairs position read ((digits byte).map Bytes.ofChar ++ rest) =
      decodePairs (position + 2) (byte :: read) rest := by
  have whole : UInt8.ofNat (16 * (byte.toNat / 16) + byte.toNat % 16) = byte := by
    rw [Nat.div_add_mod, UInt8.ofNat_toNat]
  simp only [digits, List.map_cons, List.map_nil, List.cons_append, List.nil_append, decodePairs,
    digit_reads _ (high_lt byte), digit_reads _ (low_lt byte), whole]

private theorem decodePairs_flatMap_digits (bytes read : Bytes) (position : Nat) :
    decodePairs position read (bytes.flatMap fun byte => (digits byte).map Bytes.ofChar) =
      .ok (read.reverse ++ bytes) := by
  -- The bytes read already are a prefix of the answer.
  induction bytes generalizing read position with
  | nil => simp [decodePairs]
  | cons byte rest ih =>
    rw [List.flatMap_cons, decodePairs_digits_append, ih, List.reverse_cons, List.append_assoc, List.singleton_append]

@[simp] theorem decode_encode (bytes : Bytes) : decode (encode bytes) = .ok bytes := by
  have length : (bytes.flatMap fun byte => (digits byte).map Bytes.ofChar).length = bytes.length * 2 := by
    rw [List.length_flatMap]
    simp [digits]
  rw [decode, ofString_encode]
  simp only [length, Nat.mul_mod_left, Nat.zero_ne_one, if_false, decodePairs_flatMap_digits, List.reverse_nil,
    List.nil_append]

theorem digitChar_reads :
    ∀ value < 16, digitValue (Bytes.ofChar value.digitChar) = some value ∧ value.digitChar.val ≤ 127 ∧
      Bytes.ofChar value.digitChar ≠ 0x2b := by
  decide

/-- Every digit of a number is the character of some value. -/
private theorem exists_of_mem_toDigits {n : Nat} {c : Char} (listed : c ∈ Nat.toDigits 16 n) :
    ∃ value < 16, c = value.digitChar := by
  induction n using Nat.strongRecOn with
  | ind n ih =>
    rw [Nat.toDigits_eq_if (by decide)] at listed
    split at listed
    next single => exact ⟨n, single, List.mem_singleton.mp listed⟩
    next several =>
      obtain earlier | last := List.mem_append.mp listed
      · exact ih (n / 16) (by omega) earlier
      · exact ⟨n % 16, Nat.mod_lt _ (by decide), List.mem_singleton.mp last⟩

private theorem foldlM_toDigits (n : Nat) :
    ((Nat.toDigits 16 n).map Bytes.ofChar).foldlM appendDigit? 0 = some n := by
  induction n using Nat.strongRecOn with
  | ind n ih =>
    rw [Nat.toDigits_eq_if (by decide)]
    split
    next single => simp [appendDigit?, (digitChar_reads n single).1]
    next several =>
      have last := (digitChar_reads (n % 16) (Nat.mod_lt _ (by decide))).1
      rw [List.map_append, List.foldlM_append, ih (n / 16) (by omega)]
      simp [appendDigit?, last, Nat.div_add_mod]

private theorem foldlM_replicate_zero (count : Nat) :
    (List.replicate count (Bytes.ofChar '0')).foldlM appendDigit? 0 = some 0 := by
  have zero : appendDigit? 0 (Bytes.ofChar '0') = some 0 := by decide
  induction count with
  | zero => rfl
  | succ count ih => rw [List.replicate_succ, List.foldlM_cons, zero, Option.bind_eq_bind, Option.bind_some, ih]

/-- Leading zeros change nothing, and no digit is taken for a sign. -/
@[simp] theorem word?_padded (width : Nat) (n : UInt32) : word? (padded width n.toNat) = some n := by
  let zeros := List.replicate (width - (Nat.toDigits 16 n.toNat).length) '0'
  let chars := zeros ++ Nat.toDigits 16 n.toNat
  have digits (c : Char) (listed : c ∈ chars) : ∃ value < 16, c = value.digitChar := by
    obtain zero | digit := List.mem_append.mp listed
    · exact ⟨0, by decide, List.eq_of_mem_replicate zero⟩
    · exact exists_of_mem_toDigits digit
  have bytes : Bytes.ofString (padded width n.toNat) = chars.map Bytes.ofChar := by
    apply Bytes.ofString_ofList
    intro c listed
    obtain ⟨value, small, rfl⟩ := digits c listed
    exact (digitChar_reads value small).2.1
  have unsigned : (chars.map Bytes.ofChar).head? ≠ some 0x2b := by
    intro sign
    obtain ⟨c, listed, same⟩ := List.mem_map.mp (List.mem_of_mem_head? sign)
    obtain ⟨value, small, rfl⟩ := digits c listed
    exact (digitChar_reads value small).2.2 same
  have value : (chars.map Bytes.ofChar).foldlM appendDigit? 0 = some n.toNat := by
    rw [List.map_append, List.foldlM_append, List.map_replicate, foldlM_replicate_zero, Option.bind_eq_bind,
      Option.bind_some, foldlM_toDigits]
  have filled : chars.map Bytes.ofChar ≠ [] := by
    intro none
    exact Nat.toDigits_ne_nil (List.append_eq_nil_iff.mp (List.map_eq_nil_iff.mp none)).2
  have small : n.toNat < UInt32.size := n.toNat_lt
  rw [word?, bytes]
  simp only [if_neg unsigned, guard, if_pos filled, value, if_pos small, Option.bind_eq_bind, Option.pure_def,
    Option.bind_some, UInt32.ofNat_toNat]

end Hex

@[simp] theorem Decoder.runHex_encode {α : Type} (decoder : Decoder α) (input : Bytes) :
    decoder.runHex (Hex.encode input) = decoder.run input := by
  rw [runHex, Hex.trim_encode, Hex.decode_encode]

@[simp] theorem Hash256.ofHex_toHex (hash : Hash256) : ofHex hash.toHex = .ok hash := by
  have size : hash.toBytes.reverse.length = 32 := by simp
  rw [ofHex, toHex, Hex.decode_encode]
  simp only [bind, Except.bind, size, if_true, List.reverse_reverse, ofBytes_toBytes]
  rfl

end Mintage
