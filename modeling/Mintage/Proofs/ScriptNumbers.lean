import Mintage.Proofs.ByteWords
import Mintage.Script

/-! Numbers in scripts. The top bit of the last byte is the sign and the other bits are the magnitude, so bytes of one
length reach equally far in both directions. A number is written in the only bytes of the least length that reaches it. -/

namespace Mintage.Script

/-- Whether the top bit of the last byte is set. -/
def isNegative (bytes : Bytes) : Bool :=
  bytes.getLast?.any (0x80 ≤ ·)

/-- The bytes with that bit cleared. -/
def unsigned : Bytes → Bytes
  | [] => []
  | [last] => [last % 0x80]
  | byte :: rest => byte :: unsigned rest

/-- The number that bytes in sign and magnitude form stand for. -/
def value (bytes : Bytes) : Int :=
  if isNegative bytes then -(unsigned bytes).toNat else (unsigned bytes).toNat

/-- Bytes for a number, of which there are no fewer in any other form of it. -/
structure Shortest (n : Int) (bytes : Bytes) : Prop where
  value_eq : value bytes = n
  length_le : ∀ other, value other = n → bytes.length ≤ other.length

theorem natAbs_value (bytes : Bytes) : (value bytes).natAbs = (unsigned bytes).toNat := by
  unfold value
  split
  · rw [Int.natAbs_neg, Int.natAbs_natCast]
  · rw [Int.natAbs_natCast]

theorem toNat_unsigned_singleton (last : UInt8) : (unsigned [last]).toNat = last.toNat % 128 :=
  UInt8.toNat_mod ..

/-- The sign bit is worth half of what the bytes can count, and the other bits are worth less. -/
theorem toNat_eq_unsigned {bytes : Bytes} {width : Nat} (length : bytes.length = width + 1) :
    (unsigned bytes).toNat < 128 * 256 ^ width ∧
      bytes.toNat = (unsigned bytes).toNat + (isNegative bytes).toNat * (128 * 256 ^ width) := by
  fun_induction unsigned bytes generalizing width with
  | case1 => cases length
  | case2 last =>
    obtain rfl : width = 0 := Nat.succ.inj length.symm
    have top : isNegative [last] = decide (128 ≤ last.toNat) := rfl
    have alone : Bytes.toNat [last] = last.toNat := rfl
    have cleared : Bytes.toNat [last % 0x80] = last.toNat % 128 := toNat_unsigned_singleton last
    have small := last.toNat_lt
    rw [cleared, alone, top]
    by_cases negative : 128 ≤ last.toNat
    · rw [decide_eq_true negative, Bool.toNat_true]
      omega
    · rw [decide_eq_false negative, Bool.toNat_false]
      omega
  | case3 byte rest more ih =>
    obtain ⟨next, tail, rfl⟩ := List.exists_cons_of_ne_nil more
    obtain ⟨width, rfl⟩ : ∃ shorter, width = shorter + 1 := ⟨tail.length, Nat.succ.inj length.symm⟩
    obtain ⟨less, whole⟩ := ih (Nat.succ.inj length)
    -- The sign is that of the rest, where it stands one place lower.
    have top : isNegative (byte :: next :: tail) = isNegative (next :: tail) := rfl
    have half : 128 * 256 ^ (width + 1) = 256 * (128 * 256 ^ width) := by
      rw [Nat.pow_succ']
      omega
    have small := byte.toNat_lt
    rw [half, Bytes.toNat, Bytes.toNat, top, whole]
    generalize 128 * 256 ^ width = half at *
    cases isNegative (next :: tail) with
    | false =>
      simp only [Bool.toNat_false]
      omega
    | true =>
      simp only [Bool.toNat_true]
      omega

theorem isNegative_eq {bytes : Bytes} (nonzero : value bytes ≠ 0) : isNegative bytes = decide (value bytes < 0) := by
  cases top : isNegative bytes with
  | false =>
    have plain : value bytes = (unsigned bytes).toNat := by
      rw [value, top]
      rfl
    exact (decide_eq_false (by omega)).symm
  | true =>
    have negated : value bytes = -(unsigned bytes).toNat := by
      rw [value, top]
      rfl
    exact (decide_eq_true (by omega)).symm

/-- Zero has two forms of every length but none, the other numbers have one at most. -/
theorem eq_of_value_eq {first second : Bytes} (length : first.length = second.length)
    (same : value first = value second) (nonzero : value first ≠ 0) : first = second := by
  obtain ⟨width, counted⟩ : ∃ width, first.length = width + 1 :=
    Nat.exists_eq_succ_of_ne_zero fun empty => nonzero (List.eq_nil_of_length_eq_zero empty ▸ rfl)
  obtain ⟨_, whole⟩ := toNat_eq_unsigned counted
  obtain ⟨_, wholeSecond⟩ := toNat_eq_unsigned (length ▸ counted)
  have magnitude : (unsigned first).toNat = (unsigned second).toNat := by
    rw [← natAbs_value, ← natAbs_value, same]
  have top : isNegative first = isNegative second := by
    rw [isNegative_eq nonzero, isNegative_eq (same ▸ nonzero), same]
  have number : first.toNat = second.toNat := by
    rw [whole, wholeSecond, magnitude, top]
  rw [← Bytes.ofNat_toNat first, ← Bytes.ofNat_toNat second, number, length]

example : value [0x80, 0x80] = -128 ∧ value [0x80, 0x00] = 128 ∧ value [0x80] = value [0x00] := by decide

theorem toNat_magnitude (n : Nat) : (magnitude n).toNat = n := by
  fun_induction magnitude n with
  | case1 => rfl
  | case2 n _ ih =>
    rw [Bytes.toNat, ih, UInt8.toNat_ofNat']
    omega

theorem magnitude_ne_nil {n : Nat} (positive : n ≠ 0) : magnitude n ≠ [] := by
  rw [magnitude, if_neg positive]
  exact List.cons_ne_nil _ _

theorem top_bit (byte : UInt8) :
    (byte &&& 0x80 != 0) = decide (0x80 ≤ byte) ∧ (byte < 0x80 → (byte ||| 0x80).toNat = byte.toNat + 128) := by
  obtain ⟨bits⟩ := byte
  revert bits
  decide +kernel

theorem sign_ne_nil {bytes : Bytes} (negative : Bool) (nonempty : bytes ≠ []) : sign negative bytes ≠ [] := by
  fun_cases sign negative bytes with
  | case1 => exact absurd rfl nonempty
  | case2 => exact List.cons_ne_nil _ _
  | case3 => exact List.cons_ne_nil _ _
  | case4 => exact List.cons_ne_nil _ _

theorem isNegative_sign {bytes : Bytes} (negative : Bool) (nonempty : bytes ≠ []) :
    isNegative (sign negative bytes) = negative := by
  fun_induction sign negative bytes with
  | case1 => exact absurd rfl nonempty
  | case2 last set => cases negative <;> rfl
  | case3 last clear =>
    rw [(top_bit last).1, decide_eq_true_eq, UInt8.not_le] at clear
    cases negative with
    | false => exact decide_eq_false (UInt8.not_le.mpr clear)
    | true =>
      have raised := (top_bit last).2 clear
      have top : (0x80 : UInt8) ≤ last ||| 0x80 := by
        rw [UInt8.le_iff_toNat_le, raised]
        exact Nat.le_add_left ..
      exact decide_eq_true top
  | case4 byte rest more ih =>
    obtain ⟨next, tail, signed⟩ := List.exists_cons_of_ne_nil (sign_ne_nil negative more)
    rw [signed] at ih ⊢
    exact ih more

theorem toNat_unsigned_sign (negative : Bool) (bytes : Bytes) :
    (unsigned (sign negative bytes)).toNat = bytes.toNat := by
  fun_induction sign negative bytes with
  | case1 => rfl
  | case2 last set => cases negative <;> rfl
  | case3 last clear =>
    rw [(top_bit last).1, decide_eq_true_eq, UInt8.not_le] at clear
    have small : last.toNat < 128 := clear
    have alone : Bytes.toNat [last] = last.toNat := rfl
    rw [toNat_unsigned_singleton, alone]
    cases negative with
    | false => exact Nat.mod_eq_of_lt small
    | true =>
      have raised := (top_bit last).2 clear
      rw [if_pos rfl, raised]
      omega
  | case4 byte rest more ih =>
    obtain ⟨next, tail, signed⟩ := List.exists_cons_of_ne_nil (sign_ne_nil negative more)
    rw [signed] at ih ⊢
    rw [unsigned, Bytes.toNat, ih, Bytes.toNat]
    exact List.cons_ne_nil _ _

theorem number_zero : number 0 = [] := by
  rw [number, Int.natAbs_zero, magnitude, if_pos rfl, sign]

theorem value_number (n : Int) : value (number n) = n := by
  by_cases zero : n = 0
  · rw [zero, number_zero]
    rfl
  · have digits := magnitude_ne_nil (Int.natAbs_ne_zero.mpr zero)
    rw [number, value, isNegative_sign _ digits, toNat_unsigned_sign, toNat_magnitude]
    split
    next negative =>
      have below := of_decide_eq_true negative
      omega
    next positive =>
      have above := of_decide_eq_false (eq_false_of_ne_true positive)
      omega

/-- A byte is added for the sign only if the magnitude needs the top bit. -/
theorem length_sign_magnitude_le {n width : Nat} (negative : Bool) (small : n < 128 * 256 ^ width) :
    (sign negative (magnitude n)).length ≤ width + 1 := by
  -- Bytes are taken off at the low end, so that the sign only comes up with the last one.
  induction width generalizing n with
  | zero =>
    by_cases zero : n = 0
    · rw [zero, magnitude, if_pos rfl]
      exact Nat.zero_le _
    · have last : (UInt8.ofNat n).toNat = n := by
        rw [UInt8.toNat_ofNat']
        omega
      have clear : ¬ (UInt8.ofNat n &&& 0x80 != 0) = true := by
        rw [(top_bit _).1, decide_eq_true_eq, UInt8.le_iff_toNat_le, last]
        exact Nat.not_le.mpr small
      rw [magnitude, if_neg zero, magnitude, if_pos (by omega), sign, if_neg clear]
      exact Nat.le_refl _
  | succ width ih =>
    rw [magnitude]
    split
    · exact Nat.zero_le _
    · have shorter : n / 256 < 128 * 256 ^ width := by
        rw [Nat.pow_succ'] at small
        omega
      cases rest : magnitude (n / 256) with
      | nil =>
        rw [sign]
        split <;> simp
      | cons next tail =>
        rw [sign, ← rest, List.length_cons]
        · exact Nat.succ_le_succ (ih shorter)
        · exact List.cons_ne_nil _ _

/-- Bytes reach as far as they are many, so none are fewer than those that are written. -/
theorem length_number_value_le (bytes : Bytes) : (number (value bytes)).length ≤ bytes.length := by
  cases counted : bytes.length with
  | zero =>
    have none : value bytes = 0 := List.eq_nil_of_length_eq_zero counted ▸ rfl
    rw [none, number_zero]
    exact Nat.le_refl _
  | succ width =>
    have reached := (toNat_eq_unsigned counted).1
    rw [← natAbs_value] at reached
    exact length_sign_magnitude_le _ reached

theorem shortest_iff {n : Int} {bytes : Bytes} : Shortest n bytes ↔ bytes = number n := by
  constructor
  · rintro ⟨rfl, least⟩
    have length : bytes.length = (number (value bytes)).length :=
      Nat.le_antisymm (least _ (value_number _)) (length_number_value_le bytes)
    by_cases zero : value bytes = 0
    · rw [zero, number_zero] at length ⊢
      exact List.eq_nil_of_length_eq_zero length
    · exact eq_of_value_eq length (value_number _).symm zero
  · rintro rfl
    refine ⟨value_number n, ?_⟩
    rintro other rfl
    exact length_number_value_le other

theorem number_eq_singleton {n : Int} {last : UInt8} (nonzero : n ≠ 0) (same : value [last] = n) : number n = [last] := by
  refine (shortest_iff.mp ⟨same, ?_⟩).symm
  intro other standsFor
  apply List.length_pos_of_ne_nil
  rintro rfl
  exact nonzero standsFor.symm

/-- Numbers take one byte more for the sign at most. -/
theorem length_number_le {n width : Nat} (small : n < 256 ^ width) : (number n).length ≤ width + 1 := by
  apply length_sign_magnitude_le
  rw [Int.natAbs_natCast]
  omega

end Mintage.Script
