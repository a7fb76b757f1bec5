import Mintage.Proofs.CompactTargets

/-! Bits in their canonical form: the ones that are written for some target. Reading them and writing what was read
gives them back, and that happens to no other bits. -/

namespace Mintage.CompactTarget

/-- Bits that stand for a target, as short as it can be written and with no digit that reading would drop. -/
structure Canonical (bits : UInt32) : Prop where
  positive : (decode bits).negative = false
  fits : (decode bits).overflow = false
  shortest : bits ≠ 0 → 0x8000 ≤ mantissa bits
  whole : 256 ^ (3 - exponent bits) ∣ mantissa bits

theorem le_leading {target : Nat} (positive : target ≠ 0) : 0x8000 ≤ leading target := by
  have long : 0 < signedLength target := lt_signedLength_iff.mpr (by omega)
  -- One byte less would not hold the target and its sign.
  have least : 256 ^ (signedLength target - 1) ≤ 2 * target := lt_signedLength_iff.mp (by omega)
  have next := Nat.pow_pred_mul (x := 256) long
  rw [leading, Nat.le_div_iff_mul_le (Nat.pow_pos (by decide)), ← next]
  omega

theorem canonical_encode {target : Nat} (small : target < targetBound) : Canonical (encode target) := by
  obtain ⟨positive, fits, _⟩ := means_encode small
  obtain ⟨size, _, word⟩ := fields_encode small
  refine ⟨positive, fits, ?_, ?_⟩
  · intro written
    rw [word]
    apply le_leading
    rintro rfl
    exact written rfl
  · rw [size, word]
    rcases Nat.le_total (signedLength target) 3 with short | long
    · rw [leading_of_short short]
      exact Nat.dvd_mul_left ..
    · rw [Nat.sub_eq_zero_of_le long]
      exact Nat.one_dvd _

namespace Canonical

variable {bits : UInt32} (canonical : Canonical bits)

include canonical

theorem sign_eq : sign bits = 0 := by
  by_cases zero : bits = 0
  · rw [zero]
    decide
  · have word := canonical.shortest zero
    have binary := sign_lt bits
    have clear : sign bits ≠ 1 := by
      intro set
      have negative := (negative_decode_iff bits).mpr ⟨by omega, set⟩
      rw [canonical.positive] at negative
      exact Bool.false_ne_true negative
    omega

/-- Nothing of canonical bits is below the last byte of their target. -/
theorem target_mul : (decode bits).target * 256 ^ 3 = mantissa bits * 256 ^ exponent bits := by
  rw [target_decode canonical.fits, scaled]
  apply Nat.div_mul_cancel
  have places : (256 : Nat) ^ 3 ∣ 256 ^ (3 - exponent bits) * 256 ^ exponent bits := by
    rw [← Nat.pow_add]
    exact Nat.pow_dvd_pow 256 (by omega)
  exact Nat.dvd_trans places (Nat.mul_dvd_mul_right canonical.whole _)

theorem exponent_pos (written : bits ≠ 0) : 0 < exponent bits := by
  rw [Nat.pos_iff_ne_zero]
  intro empty
  have word := canonical.shortest written
  have less := mantissa_lt bits
  have whole := canonical.whole
  rw [empty] at whole
  have least := Nat.le_of_dvd (by omega) whole
  omega

theorem signedLength_target : signedLength (decode bits).target = exponent bits := by
  by_cases zero : bits = 0
  · rw [zero]
    rfl
  · have value := target_mul canonical
    have place : 0 < (256 : Nat) ^ exponent bits := Nat.pow_pos (by decide)
    apply Nat.le_antisymm
    · rw [signedLength_le_iff]
      have product := Nat.mul_lt_mul_of_pos_right (mantissa_lt bits) place
      omega
    · have next := Nat.pow_pred_mul (x := 256) (exponent_pos canonical zero)
      have product := Nat.mul_le_mul_right (256 ^ exponent bits) (canonical.shortest zero)
      have longer : exponent bits - 1 < signedLength (decode bits).target := lt_signedLength_iff.mpr (by omega)
      omega

theorem leading_target : leading (decode bits).target = mantissa bits := by
  rw [leading, signedLength_target canonical, target_mul canonical, Nat.mul_div_cancel _ (Nat.pow_pos (by decide))]

theorem encode_target : encode (decode bits).target = bits := by
  obtain ⟨size, positive, word⟩ := fields_encode (target_decode_lt bits)
  rw [← UInt32.toNat_inj, toNat_eq_fields (encode _), toNat_eq_fields bits, size, positive, word,
    signedLength_target canonical, sign_eq canonical, leading_target canonical]

end Canonical

theorem encode_decode_iff (bits : UInt32) : encode (decode bits).target = bits ↔ Canonical bits := by
  constructor
  · intro back
    rw [← back]
    exact canonical_encode (target_decode_lt bits)
  · exact Canonical.encode_target

/-- Writing a target keeps the greatest one below it that any bits stand for, so that a greater target never reads as
a lesser one, and what was read is written in the same way again. The bits that survive being read and written are the
canonical ones. -/
theorem encoding_rounds_down {target : Nat} (small : target < targetBound) :
    (decode (encode target)).negative = false ∧ (decode (encode target)).overflow = false ∧
      IsGreatest {value | value ≤ target ∧ ∃ bits, Means bits value} (decode (encode target)).target ∧
      encode (decode (encode target)).target = encode target ∧
      (∀ less ≤ target, (decode (encode less)).target ≤ (decode (encode target)).target) ∧
      ∀ bits, encode (decode bits).target = bits ↔ Canonical bits := by
  obtain ⟨positive, fits, value⟩ := means_encode small
  refine ⟨positive, fits, ?_, (canonical_encode small).encode_target, ?_, encode_decode_iff⟩
  · rw [value]
    exact isGreatest_rounded small
  · intro less ordered
    rw [value, (means_encode (Nat.lt_of_le_of_lt ordered small)).target_eq]
    exact rounded_mono ordered small

/-- The bit in the place of the sign takes a byte of its own: 0x80ffffff keeps two of its bytes. -/
theorem leading_bit_costs_byte :
    0x80ffffff < targetBound ∧ encode 0x80ffffff = 0x050080ff ∧
      IsGreatest {value | value ≤ 0x80ffffff ∧ ∃ bits, Means bits value} 0x80ff0000 ∧ Canonical 0x050080ff := by
  have small : 0x80ffffff < targetBound := by decide
  have written : encode 0x80ffffff = 0x050080ff := by decide
  obtain ⟨_, _, greatest, again, _, canonical⟩ := encoding_rounds_down small
  rw [written] at greatest again
  exact ⟨small, written, greatest, (canonical _).mp again⟩

end Mintage.CompactTarget
