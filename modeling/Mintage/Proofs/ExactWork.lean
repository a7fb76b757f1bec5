import Mathlib.Algebra.Order.Floor.Semifield
import Mathlib.Data.Rat.Floor
import Mintage.Proofs.CompactTargets

/-! The number that compact bits spell out, and the work that a target of that size stands for. Both are exact
quantities that 256 bits need not hold: the overflow flag tells when they do not hold the first, and the second never
grows so large. -/

namespace Mintage.CompactTarget

theorem scaled_eq_floor (size word : Nat) : scaled size word = ⌊(word : ℚ) * 256 ^ ((size : ℤ) - 3)⌋₊ := by
  have ratio : (word : ℚ) * 256 ^ ((size : ℤ) - 3) = (word * 256 ^ size : Nat) / (256 ^ 3 : Nat) := by
    rw [zpow_sub₀ (by norm_num), ← mul_div_assoc]
    norm_cast
  rw [ratio, Nat.floor_div_eq_div, scaled]

/-- The number before its digits below the last byte are dropped, and before it is held in 256 bits. -/
def magnitude (bits : UInt32) : ℚ :=
  mantissa bits * 256 ^ ((exponent bits : ℤ) - 3)

theorem valid_iff {compact : CompactTarget} :
    compact.valid = true ↔ compact.negative = false ∧ compact.overflow = false ∧ compact.target ≠ 0 := by
  simp only [valid, Bool.and_eq_true, Bool.not_eq_true', bne_iff_ne, and_assoc]

variable {bits : UInt32}

theorem floor_magnitude : ⌊magnitude bits⌋₊ = scaled (exponent bits) (mantissa bits) :=
  (scaled_eq_floor _ _).symm

/-- A long target ends in a byte of zeros, and a short one is far from the bound. -/
theorem succ_target_lt (fits : (decode bits).overflow = false) : (decode bits).target + 1 < targetBound := by
  have small := target_decode_lt bits
  have word := mantissa_lt bits
  rw [targetBound_eq] at small ⊢
  rw [target_decode fits] at small ⊢
  rcases Nat.lt_or_ge 3 (exponent bits) with long | short
  · have whole : 256 ∣ scaled (exponent bits) (mantissa bits) := by
      rw [scaled_of_ge (Nat.le_of_lt long)]
      exact Nat.dvd_mul_left_of_dvd (dvd_pow_self 256 (by omega)) _
    omega
  · have less : scaled (exponent bits) (mantissa bits) ≤ mantissa bits := by
      rw [scaled_of_le short]
      exact Nat.div_le_self ..
    omega

/-- The work is a quotient of numbers that fit, since 2^256 itself is left out of it and put back at the end. -/
theorem blockProof_eq (valid : (decode bits).valid = true) :
    blockProof bits = targetBound / ((decode bits).target + 1) := by
  have room := succ_target_lt (valid_iff.mp valid).2.1
  have whole : targetBound - 1 - (decode bits).target + ((decode bits).target + 1) = targetBound := by omega
  rw [blockProof, if_pos valid, ← Nat.add_div_right _ (Nat.succ_pos _), whole]

/-- Reading bits gives the number they spell with only the digits below its last byte dropped, or reports that it has
more than 256 bits. A target that can be used is worth the whole part of 2^256 over the target plus one, which is at
least one hash and needs no more than 256 bits on the way; a greater target is never worth more. -/
theorem exact_target_and_work (bits : UInt32) :
    ((decode bits).overflow = true ↔ 2 ^ 256 ≤ ⌊magnitude bits⌋₊) ∧
      ((decode bits).overflow = false → (decode bits).target = ⌊magnitude bits⌋₊) ∧
      ((decode bits).valid = true →
        blockProof bits = 2 ^ 256 / ((decode bits).target + 1) ∧ 1 ≤ blockProof bits ∧
          (decode bits).target + 1 < 2 ^ 256 ∧ blockProof bits < 2 ^ 256 ∧
          ∀ less, (decode less).valid = true → (decode less).target ≤ (decode bits).target →
            blockProof bits ≤ blockProof less) ∧
      ((decode bits).valid = false → blockProof bits = 0) := by
  have bound : targetBound = 2 ^ 256 := Nat.one_shiftLeft 256
  refine ⟨?_, ?_, ?_, ?_⟩
  · rw [floor_magnitude, ← bound]
    exact overflow_decode_iff bits
  · intro fits
    rw [floor_magnitude]
    exact target_decode fits
  · intro valid
    obtain ⟨_, fits, positive⟩ := valid_iff.mp valid
    have room := succ_target_lt fits
    have work := blockProof_eq valid
    rw [bound] at room work
    refine ⟨work, ?_, room, ?_, ?_⟩
    · rw [work]
      exact Nat.div_pos (Nat.le_of_lt room) (Nat.succ_pos _)
    · rw [work]
      exact Nat.div_lt_self (by decide) (by omega)
    · intro less usable ordered
      rw [work, blockProof_eq usable, bound]
      exact Nat.div_le_div_left (Nat.succ_le_succ ordered) (Nat.succ_pos _)
  · intro invalid
    rw [blockProof, if_neg (by rw [invalid]; exact Bool.false_ne_true)]

/-- Bits for the greatest target there is take a single hash, and one digit more does not fit. -/
theorem greatest_target_takes_one_hash :
    (decode 0x2100ffff).valid = true ∧ blockProof 0x2100ffff = 1 ∧ blockProof 0x2100ffff ≤ blockProof 0x207fffff ∧
      2 ^ 256 ≤ ⌊magnitude 0x21010000⌋₊ ∧ (decode 0x00800000).valid = false ∧ blockProof 0x00800000 = 0 := by
  have greatest : (decode 0x2100ffff).valid = true := by decide
  have half : (decode 0x207fffff).valid = true := by decide
  have empty : (decode 0x00800000).valid = false := by decide
  obtain ⟨_, _, works, _⟩ := exact_target_and_work 0x2100ffff
  obtain ⟨work, _, _, _, falls⟩ := works greatest
  have one : blockProof 0x2100ffff = 1 := by
    rw [work]
    decide
  refine ⟨greatest, one, falls _ half (by decide), ?_, empty, ?_⟩
  · exact (exact_target_and_work 0x21010000).1.mp (by decide)
  · exact (exact_target_and_work 0x00800000).2.2.2 empty

end Mintage.CompactTarget
