import Mathlib.Algebra.Group.Nat.Defs
import Mathlib.Order.Bounds.Basic
import Mintage.Target

/-! What the compact form can say about a target. It holds twenty-three leading bits at a place that is a whole number
of bytes, so writing a target keeps the greatest value below it that can be written at all. -/

namespace Mintage.CompactTarget

theorem byteLength_le_iff {n length : Nat} : byteLength n ≤ length ↔ n < 256 ^ length := by
  have base : (256 : Nat) ^ length = 2 ^ (8 * length) := by rw [Nat.pow_mul]
  rw [base, byteLength]
  split
  next zero =>
    rw [zero]
    exact iff_of_true (Nat.zero_le _) (Nat.two_pow_pos _)
  next positive =>
    rw [← Nat.log2_lt positive]
    omega

section Moved

variable {value up down : Nat}

private theorem moved_up (more : down ≤ up) : value * 256 ^ up / 256 ^ down = value * 256 ^ (up - down) := by
  rw [← Nat.pow_sub_mul_pow 256 more, ← Nat.mul_assoc, Nat.mul_div_cancel _ (Nat.pow_pos (by decide))]

private theorem moved_down (less : up ≤ down) : value * 256 ^ up / 256 ^ down = value / 256 ^ (down - up) := by
  rw [← Nat.pow_sub_mul_pow 256 less, Nat.mul_div_mul_right _ _ (Nat.pow_pos (by decide))]

end Moved

/-- A word in its place among the bytes of a number; what falls below the last of them is dropped. -/
def scaled (size word : Nat) : Nat :=
  word * 256 ^ size / 256 ^ 3

theorem scaled_of_le {size word : Nat} (short : size ≤ 3) : scaled size word = word / 256 ^ (3 - size) :=
  moved_down short

theorem scaled_of_ge {size word : Nat} (long : 3 ≤ size) : scaled size word = word * 256 ^ (size - 3) :=
  moved_up long

theorem targetBound_eq : targetBound = 256 ^ 32 := by decide

/-- Two bytes of a word hang over the top at thirty-three bytes, and one at thirty-four. -/
theorem targetBound_le_scaled_iff {size word : Nat} (small : word < 0x800000) :
    targetBound ≤ scaled size word ↔
      word ≠ 0 ∧ (size > 34 ∨ word > 0xff ∧ size > 33 ∨ word > 0xffff ∧ size > 32) := by
  rw [targetBound_eq]
  rcases Nat.lt_or_ge 34 size with above | within
  · rw [scaled_of_ge (by omega)]
    have place : (256 : Nat) ^ 32 ≤ 256 ^ (size - 3) := Nat.pow_le_pow_right (by decide) (by omega)
    constructor
    · intro large
      refine ⟨?_, .inl above⟩
      rintro rfl
      rw [Nat.zero_mul] at large
      exact absurd large (by decide)
    · intro both
      exact Nat.le_trans place (Nat.le_mul_of_pos_left _ (Nat.pos_of_ne_zero both.1))
  · rcases Nat.lt_or_ge 32 size with near | below
    · rw [scaled_of_ge (by omega)]
      obtain rfl | rfl : size = 33 ∨ size = 34 := by omega
      · omega
      · omega
    · have place : (256 : Nat) ^ size ≤ 256 ^ 32 := Nat.pow_le_pow_right (by decide) below
      have product : word * 256 ^ size ≤ 0x7fffff * 256 ^ 32 := Nat.mul_le_mul (by omega) place
      have less : scaled size word < 256 ^ 32 := by
        rw [scaled]
        omega
      constructor
      · intro large
        omega
      · intro both
        omega

section Decode

variable (bits : UInt32)

/-- The length in bytes of the number that the bits stand for. -/
def exponent : Nat :=
  bits.toNat >>> 24

/-- The bit above the leading ones. -/
def sign : Nat :=
  bits.toNat >>> 23 % 2

/-- The leading bits of that number. -/
def mantissa : Nat :=
  bits.toNat % 0x800000

theorem toNat_eq_fields : bits.toNat = exponent bits * 0x1000000 + sign bits * 0x800000 + mantissa bits := by
  rw [exponent, sign, mantissa, Nat.shiftRight_eq_div_pow, Nat.shiftRight_eq_div_pow]
  omega

theorem sign_lt : sign bits < 2 :=
  Nat.mod_lt _ (by decide)

theorem mantissa_lt : mantissa bits < 0x800000 :=
  Nat.mod_lt _ (by decide)

variable {bits} in
theorem fields_of_toNat {word size : Nat} (whole : bits.toNat = word + size * 0x1000000) (small : word < 0x800000) :
    exponent bits = size ∧ sign bits = 0 ∧ mantissa bits = word := by
  have fields := toNat_eq_fields bits
  have binary := sign_lt bits
  have short := mantissa_lt bits
  omega

theorem negative_decode_iff : (decode bits).negative = true ↔ mantissa bits ≠ 0 ∧ sign bits = 1 := by
  simp only [decode, Bool.and_eq_true, bne_iff_ne, beq_iff_eq, mantissa, sign]

theorem overflow_decode_iff :
    (decode bits).overflow = true ↔ targetBound ≤ scaled (exponent bits) (mantissa bits) := by
  rw [targetBound_le_scaled_iff (mantissa_lt bits)]
  simp only [decode, exponent, mantissa, Bool.and_eq_true, Bool.or_eq_true, bne_iff_ne, decide_eq_true_eq, or_assoc]

theorem scaled_lt_targetBound_iff :
    scaled (exponent bits) (mantissa bits) < targetBound ↔ (decode bits).overflow = false := by
  rw [← Bool.not_eq_true, overflow_decode_iff, Nat.not_le]

theorem target_decode {bits : UInt32} (fits : (decode bits).overflow = false) :
    (decode bits).target = scaled (exponent bits) (mantissa bits) := by
  have small := (scaled_lt_targetBound_iff bits).mpr fits
  have read : (decode bits).target =
      if (decode bits).overflow then 0
      else if exponent bits ≤ 3 then mantissa bits >>> (8 * (3 - exponent bits))
      else mantissa bits <<< (8 * (exponent bits - 3)) % targetBound := rfl
  rw [read, fits, if_neg Bool.false_ne_true]
  split
  next short => rw [scaled_of_le short, Nat.shiftRight_eq_div_pow, Nat.pow_mul]
  next long =>
    rw [scaled_of_ge (by omega)] at small ⊢
    rw [Nat.shiftLeft_eq, Nat.pow_mul]
    -- The shift drops no bit of a target that fits.
    exact Nat.mod_eq_of_lt small

theorem target_decode_lt : (decode bits).target < targetBound := by
  rcases fits : (decode bits).overflow
  · rw [target_decode fits]
    exact (scaled_lt_targetBound_iff bits).mpr fits
  · have none : (decode bits).target = if (decode bits).overflow then 0 else _ := rfl
    rw [none, fits, if_pos rfl]
    exact Nat.two_pow_pos 256

end Decode

/-- The number of bytes that leaves the leading bit, which is the sign, clear. -/
def signedLength (target : Nat) : Nat :=
  byteLength (2 * target)

theorem signedLength_le_iff {target length : Nat} : signedLength target ≤ length ↔ 2 * target < 256 ^ length :=
  byteLength_le_iff

theorem lt_signedLength_iff {target length : Nat} : length < signedLength target ↔ 256 ^ length ≤ 2 * target := by
  rw [← Nat.not_le, signedLength_le_iff, Nat.not_lt]

/-- The leading bytes of a target, at the place where its compact form holds them. -/
def leading (target : Nat) : Nat :=
  target * 256 ^ 3 / 256 ^ signedLength target

theorem leading_lt (target : Nat) : leading target < 0x800000 := by
  have bound : 2 * target < 256 ^ signedLength target := signedLength_le_iff.mp (Nat.le_refl _)
  rw [leading, Nat.div_lt_iff_lt_mul (Nat.pow_pos (by decide))]
  omega

theorem leading_of_short {target : Nat} (short : signedLength target ≤ 3) :
    leading target = target * 256 ^ (3 - signedLength target) :=
  moved_up short

theorem leading_of_long {target : Nat} (long : 3 ≤ signedLength target) :
    leading target = target / 256 ^ (signedLength target - 3) :=
  moved_down long

private theorem shifted_eq (target : Nat) :
    (if byteLength target ≤ 3 then target <<< (8 * (3 - byteLength target))
      else target >>> (8 * (byteLength target - 3))) = target * 256 ^ 3 / 256 ^ byteLength target := by
  split
  next short => rw [moved_up short, Nat.shiftLeft_eq, Nat.pow_mul]
  next long => rw [moved_down (by omega), Nat.shiftRight_eq_div_pow, Nat.pow_mul]

theorem encode_eq (target : Nat) :
    encode target = UInt32.ofNat (leading target + signedLength target <<< 24) := by
  have word := shifted_eq target
  have own : target < 256 ^ byteLength target := byteLength_le_iff.mp (Nat.le_refl _)
  have least : byteLength target ≤ signedLength target :=
    byteLength_le_iff.mpr (Nat.lt_of_le_of_lt (by omega) (signedLength_le_iff.mp (Nat.le_refl _)))
  rw [encode, word]
  split
  next clear =>
    have same : signedLength target = byteLength target := by
      refine Nat.le_antisymm (signedLength_le_iff.mpr ?_) least
      rw [Nat.div_lt_iff_lt_mul (Nat.pow_pos (by decide))] at clear
      omega
    rw [leading, same]
  next set =>
    have more : signedLength target ≤ byteLength target + 1 := by
      rw [signedLength_le_iff, Nat.pow_succ]
      omega
    have next : signedLength target = byteLength target + 1 := by
      have longer : ¬ signedLength target ≤ byteLength target := by
        rw [signedLength_le_iff]
        rw [Nat.div_lt_iff_lt_mul (Nat.pow_pos (by decide))] at set
        omega
      omega
    have last : (256 : Nat) ^ (byteLength target + 1) = 256 ^ byteLength target * 256 := Nat.pow_succ ..
    rw [leading, next, last, ← Nat.div_div_eq_div_mul]

/-- The greatest target that the compact form of `target` can stand for. -/
def rounded (target : Nat) : Nat :=
  scaled (signedLength target) (leading target)

theorem rounded_le (target : Nat) : rounded target ≤ target := by
  have place : leading target * 256 ^ signedLength target ≤ target * 256 ^ 3 := Nat.div_mul_le_self ..
  rw [rounded, scaled]
  omega

theorem rounded_of_short {target : Nat} (short : signedLength target ≤ 3) : rounded target = target := by
  have place : 0 < (256 : Nat) ^ (3 - signedLength target) := Nat.pow_pos (by decide)
  rw [rounded, scaled_of_le short, leading_of_short short, Nat.mul_div_cancel _ place]

theorem rounded_of_long {target : Nat} (long : 3 ≤ signedLength target) :
    rounded target = target / 256 ^ (signedLength target - 3) * 256 ^ (signedLength target - 3) := by
  rw [rounded, scaled_of_ge long, leading_of_long long]

theorem scaled_le_rounded {size word target : Nat} (small : word < 0x800000) (below : scaled size word ≤ target) :
    scaled size word ≤ rounded target := by
  rcases Nat.lt_or_ge 3 (signedLength target) with long | short
  · rw [rounded_of_long (Nat.le_of_lt long)]
    have place : 0 < (256 : Nat) ^ (signedLength target - 3) := Nat.pow_pos (by decide)
    rcases Nat.lt_or_ge size (signedLength target) with less | more
    · -- A shorter form ends below the least word of this length.
      have least : 256 ^ (signedLength target - 1) ≤ 2 * target := lt_signedLength_iff.mp (by omega)
      have split : (256 : Nat) ^ (signedLength target - 1) = 256 ^ (signedLength target - 3) * 256 ^ 2 := by
        rw [← Nat.pow_add]
        congr 1
        omega
      have digits : 256 ^ (signedLength target - 3) * 0x8000 ≤ target := by omega
      have kept : 0x8000 ≤ target / 256 ^ (signedLength target - 3) := by
        rwa [Nat.le_div_iff_mul_le place, Nat.mul_comm]
      have limit : scaled size word ≤ 256 ^ (signedLength target - 3) * 0x8000 := by
        have power : (256 : Nat) ^ size ≤ 256 ^ (signedLength target - 1) :=
          Nat.pow_le_pow_right (by decide) (by omega)
        have product := Nat.mul_le_mul (Nat.le_of_lt small) power
        rw [scaled]
        omega
      calc scaled size word ≤ 256 ^ (signedLength target - 3) * 0x8000 := limit
        _ ≤ 256 ^ (signedLength target - 3) * (target / 256 ^ (signedLength target - 3)) := Nat.mul_le_mul_left _ kept
        _ = _ := Nat.mul_comm ..
    · -- A form at least as long stands for a multiple of the last byte that is kept.
      have whole : 256 ^ (signedLength target - 3) ∣ scaled size word := by
        rw [scaled_of_ge (by omega)]
        exact Nat.dvd_mul_left_of_dvd (Nat.pow_dvd_pow 256 (by omega)) word
      calc scaled size word = scaled size word / 256 ^ (signedLength target - 3) * 256 ^ (signedLength target - 3) :=
            (Nat.div_mul_cancel whole).symm
        _ ≤ _ := Nat.mul_le_mul_right _ (Nat.div_le_div_right below)
  · rw [rounded_of_short short]
    exact below

/-- The bits stand for a target, and for this one. -/
structure Means (bits : UInt32) (target : Nat) : Prop where
  positive : (decode bits).negative = false
  fits : (decode bits).overflow = false
  target_eq : (decode bits).target = target

section Encode

variable {target : Nat} (small : target < targetBound)

include small

theorem fields_encode :
    exponent (encode target) = signedLength target ∧ sign (encode target) = 0 ∧
      mantissa (encode target) = leading target := by
  have length : signedLength target ≤ 33 := by
    rw [targetBound_eq] at small
    rw [signedLength_le_iff]
    omega
  have word := leading_lt target
  refine fields_of_toNat ?_ word
  rw [encode_eq, Nat.shiftLeft_eq, UInt32.toNat_ofNat_of_lt']
  simp only [UInt32.size]
  omega

theorem means_encode : Means (encode target) (rounded target) := by
  obtain ⟨size, positive, word⟩ := fields_encode small
  have value : scaled (exponent (encode target)) (mantissa (encode target)) = rounded target := by
    rw [size, word, rounded]
  have fits : (decode (encode target)).overflow = false := by
    rw [← scaled_lt_targetBound_iff, value]
    exact Nat.lt_of_le_of_lt (rounded_le target) small
  refine ⟨?_, fits, (target_decode fits).trans value⟩
  rw [← Bool.not_eq_true, negative_decode_iff, positive]
  exact fun both => absurd both.2 (by decide)

/-- Encoding rounds down to what the compact form can hold, and by no more than that. -/
theorem isGreatest_rounded :
    IsGreatest {value | value ≤ target ∧ ∃ bits, Means bits value} (rounded target) := by
  refine ⟨⟨rounded_le target, _, means_encode small⟩, ?_⟩
  rintro value ⟨below, bits, _, fits, rfl⟩
  rw [target_decode fits] at below ⊢
  exact scaled_le_rounded (mantissa_lt bits) below

end Encode

theorem rounded_mono {less more : Nat} (ordered : less ≤ more) (small : more < targetBound) :
    rounded less ≤ rounded more :=
  (isGreatest_rounded small).2
    ⟨Nat.le_trans (rounded_le less) ordered, _, means_encode (Nat.lt_of_le_of_lt ordered small)⟩

end Mintage.CompactTarget
