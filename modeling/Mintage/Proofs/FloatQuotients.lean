import Mathlib

/-! When a quotient of two counts, rounded to a double, is zero. Doubles made from counts have all their fifty-three
digits, and the exponents of their quotients are nowhere near the least one, so that rounding cannot lose them. -/

namespace Mintage.Binary64

open Float.Model (Format UnpackedFloat totalExponent)
open Float.Model.UnpackedFloat

theorem log2_shiftLeft {number : Nat} (positive : number ≠ 0) (count : Nat) :
    (number <<< count).log2 = number.log2 + count := by
  induction count with
  | zero => rfl
  | succ count ih =>
    have nonzero : number <<< count ≠ 0 := by
      rw [Nat.shiftLeft_eq]
      exact Nat.mul_ne_zero positive (Nat.two_pow_pos count).ne'
    rw [Nat.shiftLeft_succ, Nat.log2_two_mul nonzero, ih, Nat.add_assoc]

theorem log2_eq {mantissa : Nat} (least : 2 ^ 52 ≤ mantissa) (most : mantissa < 2 ^ 53) : mantissa.log2 = 52 :=
  (Nat.log2_eq_iff (by omega)).mpr ⟨least, most⟩

theorem leading_digits {mantissa : Nat} (long : 52 ≤ mantissa.log2) :
    2 ^ 52 ≤ mantissa / 2 ^ (mantissa.log2 - 52) ∧ mantissa / 2 ^ (mantissa.log2 - 52) < 2 ^ 53 := by
  have nonzero : mantissa ≠ 0 := by
    rintro rfl
    simp at long
  obtain ⟨least, most⟩ := (Nat.log2_eq_iff nonzero).mp rfl
  have next : 53 + (mantissa.log2 - 52) = mantissa.log2 + 1 := by omega
  constructor
  · rwa [Nat.le_div_iff_mul_le (Nat.two_pow_pos _), ← Nat.pow_add, Nat.add_sub_cancel' long]
  · rwa [Nat.div_lt_iff_lt_mul (Nat.two_pow_pos _), ← Nat.pow_add, next]

/-! Rounding -/

@[simp] theorem mantissa_shiftRight (extended : ExtendedMantissa) (count : Nat) :
    (extended >>> count).mantissa = extended.mantissa / 2 ^ count := by
  change (count.repeat ExtendedMantissa.shiftRightOne extended).mantissa = _
  induction count with
  | zero => rw [Nat.repeat, Nat.pow_zero, Nat.div_one]
  | succ count ih => rw [Nat.repeat, ExtendedMantissa.shiftRightOne, ih, Nat.div_div_eq_div_mul, Nat.pow_succ]

@[simp] theorem mantissa_ofMantissaAndAccuracy (mantissa : Nat) (accuracy : Accuracy) :
    (ExtendedMantissa.ofMantissaAndAccuracy mantissa accuracy).mantissa = mantissa := by
  unfold ExtendedMantissa.ofMantissaAndAccuracy
  split <;> rfl

theorem roundedMantissa_bounds (extended : ExtendedMantissa) :
    extended.mantissa ≤ extended.roundedMantissa ∧ extended.roundedMantissa ≤ extended.mantissa + 1 := by
  unfold ExtendedMantissa.roundedMantissa Accuracy.roundToNearestEven
  split <;> omega

theorem log2_roundedMantissa {extended : ExtendedMantissa} (least : 2 ^ 52 ≤ extended.mantissa)
    (most : extended.mantissa < 2 ^ 53) :
    52 ≤ extended.roundedMantissa.log2 ∧ extended.roundedMantissa.log2 ≤ 53 := by
  obtain ⟨atLeast, atMost⟩ := roundedMantissa_bounds extended
  rcases Nat.lt_or_ge extended.roundedMantissa (2 ^ 53) with short | carry
  · rw [log2_eq (by omega) short]
    decide
  · have power : extended.roundedMantissa = 2 ^ 53 := by omega
    rw [power, Nat.log2_two_pow]
    decide

theorem targetExponent_eq (total : Int) : Format.binary64.targetExponent total = max (total - 53) (-1074) := rfl

theorem shiftToTargetExponent_eq {mantissa : Nat} (exponent : Int) (accuracy : Accuracy) (long : 52 ≤ mantissa.log2)
    (normal : -1074 ≤ exponent + mantissa.log2 - 52) :
    shiftToTargetExponent .binary64 mantissa exponent accuracy =
      (ExtendedMantissa.ofMantissaAndAccuracy mantissa accuracy >>> (mantissa.log2 - 52),
        exponent + (mantissa.log2 - 52 : Nat)) := by
  have count :
      (Format.binary64.targetExponent (totalExponent mantissa exponent) - exponent).toNat = mantissa.log2 - 52 := by
    rw [targetExponent_eq, totalExponent]
    omega
  rw [shiftToTargetExponent, shiftToExponent, count]

/-- A positive number `m * 2 ^ e` whose mantissa has all its fifty-three digits, with `low ≤ e ≤ high`. -/
def Within (low high : Int) (value : UnpackedFloat) : Prop :=
  ∃ mantissa exponent positive, value = .finite .positive mantissa exponent positive ∧
    2 ^ 52 ≤ mantissa ∧ mantissa < 2 ^ 53 ∧ low ≤ exponent ∧ exponent ≤ high

variable {low high low' high' : Int} {value left right : UnpackedFloat}

theorem Within.mono {lower higher : Int} (within : Within low high value) (below : lower ≤ low)
    (above : high ≤ higher) : Within lower higher value := by
  obtain ⟨mantissa, exponent, positive, same, least, most, atLeast, atMost⟩ := within
  exact ⟨mantissa, exponent, positive, same, least, most, Int.le_trans below atLeast, Int.le_trans atMost above⟩

theorem within_of_shifts {mantissa : Nat} {exponent : Int} {accuracy : Accuracy} {first second : ExtendedMantissa × Int}
    (shift : shiftToTargetExponent .binary64 mantissa exponent accuracy = first)
    (again : shiftToTargetExponent .binary64 first.1.roundedMantissa first.2 .exact = second)
    (least : 2 ^ 52 ≤ second.1.mantissa) (most : second.1.mantissa < 2 ^ 53) (atLeast : low ≤ second.2)
    (atMost : second.2 ≤ high) : Within low high (roundWithAccuracy .binary64 .positive mantissa exponent accuracy) := by
  have nonzero : second.1.mantissa ≠ 0 := by omega
  subst shift again
  exact ⟨_, _, _, dif_neg nonzero, least, most, atLeast, atMost⟩

/-- Rounding drops the digits after the fifty-third, and a carry out of the others moves the point once more. -/
theorem within_roundWithAccuracy {mantissa : Nat} (exponent : Int) (accuracy : Accuracy) (long : 52 ≤ mantissa.log2)
    (normal : -1074 ≤ exponent + mantissa.log2 - 52) :
    Within (exponent + mantissa.log2 - 52) (exponent + mantissa.log2 - 51)
      (roundWithAccuracy .binary64 .positive mantissa exponent accuracy) := by
  have first := shiftToTargetExponent_eq exponent accuracy long normal
  obtain ⟨least, most⟩ := leading_digits long
  set kept := ExtendedMantissa.ofMantissaAndAccuracy mantissa accuracy >>> (mantissa.log2 - 52) with shifted
  have digits : kept.mantissa = mantissa / 2 ^ (mantissa.log2 - 52) := by
    rw [shifted, mantissa_shiftRight, mantissa_ofMantissaAndAccuracy]
  rw [← digits] at least most
  obtain ⟨atLeast, atMost⟩ := log2_roundedMantissa least most
  have second := shiftToTargetExponent_eq (exponent + (mantissa.log2 - 52 : Nat)) .exact atLeast (by omega)
  obtain ⟨least', most'⟩ := leading_digits atLeast
  apply within_of_shifts first second
  · rwa [mantissa_shiftRight, mantissa_ofMantissaAndAccuracy]
  · rwa [mantissa_shiftRight, mantissa_ofMantissaAndAccuracy]
  · dsimp only
    omega
  · dsimp only
    omega

/-! Arithmetic -/

/-- A whole number of at most sixty-four bits is shifted until it has fifty-three. -/
theorem within_ofNat {number : Nat} (positive : number ≠ 0) (small : number < 2 ^ 64) :
    Within (-52) 12 (UnpackedFloat.ofNat .binary64 number) := by
  have bits : number.log2 < 64 := (Nat.log2_lt positive).mpr small
  have compared : compare (number : Int) 0 = .gt := compare_gt_iff_gt.mpr (by omega)
  rw [UnpackedFloat.ofNat, UnpackedFloat.ofInt, UnpackedFloat.normalize, compared]
  change Within _ _ (UnpackedFloat.round _ _ number _)
  rw [UnpackedFloat.round, decreaseExponent, targetExponent_eq, totalExponent]
  set count := (0 - max (number.log2 + 1 + 0 - 53 : Int) (-1074)).toNat
  have digits := log2_shiftLeft positive count
  apply (within_roundWithAccuracy _ .exact ?_ ?_).mono
  all_goals
    rw [digits]
    omega

theorem within_mul (first : Within low high left) (second : Within low' high' right) (normal : -1126 ≤ low + low') :
    Within (low + low' + 52) (high + high' + 54) (UnpackedFloat.mul .binary64 left right) := by
  obtain ⟨mantissa, exponent, positive, rfl, long, short, atLeast, atMost⟩ := first
  obtain ⟨mantissa', exponent', positive', rfl, long', short', atLeast', atMost'⟩ := second
  have nonzero : mantissa * mantissa' ≠ 0 := (Nat.mul_pos positive positive').ne'
  have least : 2 ^ 52 * 2 ^ 52 ≤ mantissa * mantissa' := Nat.mul_le_mul long long'
  have most : mantissa * mantissa' < 2 ^ 53 * 2 ^ 53 := Nat.mul_lt_mul'' short short'
  have digits : 104 ≤ (mantissa * mantissa').log2 := (Nat.le_log2 nonzero).mpr least
  have bounded : (mantissa * mantissa').log2 < 106 := (Nat.log2_lt nonzero).mpr most
  exact (within_roundWithAccuracy (exponent + exponent') .exact (by omega) (by omega)).mono (by omega) (by omega)

/-- The dividend is given fifty-three more digits, so that the quotient has enough of them. -/
theorem within_div (first : Within low high left) (second : Within low' high' right) (normal : -1021 ≤ low - high') :
    Within (low - high' - 53) (high - low' - 51) (UnpackedFloat.div .binary64 left right) := by
  obtain ⟨mantissa, exponent, positive, rfl, long, short, atLeast, atMost⟩ := first
  obtain ⟨mantissa', exponent', positive', rfl, long', short', atLeast', atMost'⟩ := second
  have target : min (exponent - exponent')
      (Format.binary64.targetExponent (totalExponent mantissa exponent - totalExponent mantissa' exponent')) =
      exponent - exponent' - 53 := by
    rw [targetExponent_eq, totalExponent, totalExponent, log2_eq long short, log2_eq long' short']
    omega
  have shift : (exponent - exponent' - (exponent - exponent' - 53)).toNat = 53 := by omega
  set quotient := mantissa <<< 53 / mantissa' with divided
  have least : 2 ^ 52 ≤ quotient := by
    rw [divided, Nat.le_div_iff_mul_le positive', Nat.shiftLeft_eq]
    exact Nat.mul_le_mul long (Nat.le_of_lt short')
  have most : quotient < 2 ^ 54 := by
    rw [divided, Nat.div_lt_iff_lt_mul positive', Nat.shiftLeft_eq]
    omega
  have digits : 52 ≤ quotient.log2 := (Nat.le_log2 (by omega)).mpr least
  have bounded : quotient.log2 < 54 := (Nat.log2_lt (by omega)).mpr most
  rw [UnpackedFloat.div, divCore]
  simp only [target, shift]
  exact (within_roundWithAccuracy (exponent - exponent' - 53) _ digits (by omega)).mono (by omega) (by omega)

/-! Sixty-four bits -/

theorem toNat_one_append {mantissa : Nat} (least : 2 ^ 52 ≤ mantissa) (most : mantissa < 2 ^ 53) :
    (1#1 ++ BitVec.ofNat 52 mantissa).toNat = mantissa := by
  rw [BitVec.toNat_append, BitVec.toNat_ofNat, BitVec.toNat_ofNat, ← Nat.shiftLeft_add_eq_or_of_lt (by omega)]
  omega

theorem pack_finite {mantissa : Nat} {biased : Nat} (positive : 0 < mantissa) (least : 2 ^ 52 ≤ mantissa)
    (most : mantissa < 2 ^ 53) (normal : biased < 2047) :
    UnpackedFloat.pack .binary64 (.finite .positive mantissa (biased - 1075) positive) =
      packComponents .binary64 .positive (BitVec.ofNat 11 biased) (BitVec.ofNat 52 mantissa) := by
  have stored : ((biased - 1075 : Int) + (1023 : Nat) + (52 : Nat)).toNat = biased := by omega
  rw [UnpackedFloat.pack]
  change (if 2 ^ 11 ≤ ((biased - 1075 : Int) + (1023 : Nat) + (52 : Nat)).toNat + 1 then _
    else if mantissa.log2 + 1 = 53 then
      packComponents .binary64 .positive (BitVec.ofNat 11 ((biased - 1075 : Int) + (1023 : Nat) + (52 : Nat)).toNat)
        (BitVec.ofNat 52 mantissa)
    else _) = _
  rw [stored, if_neg (by omega), if_pos (by rw [log2_eq least most])]

/-- Eleven bits hold the exponent of a normal number, and its first digit goes without saying. -/
theorem unpack_pack (within : Within low high value) (least : -1074 ≤ low) (most : high ≤ 971) :
    UnpackedFloat.unpack .binary64 (UnpackedFloat.pack .binary64 value) = value := by
  obtain ⟨mantissa, exponent, positive, rfl, long, short, atLeast, atMost⟩ := within
  obtain ⟨biased, rfl⟩ : ∃ biased : Nat, exponent = biased - 1075 := ⟨(exponent + 1075).toNat, by omega⟩
  have stored : (BitVec.ofNat 11 biased).toNat = biased := by
    rw [BitVec.toNat_ofNat]
    omega
  have finite : BitVec.ofNat 11 biased ≠ -1#11 := by
    intro all
    rw [all, show (-1#11).toNat = 2047 by decide] at stored
    omega
  have nonzero : BitVec.ofNat 11 biased ≠ 0#11 := by
    intro none
    rw [none, show (0#11).toNat = 0 by decide] at stored
    omega
  rw [pack_finite positive long short (by omega), UnpackedFloat.unpack]
  simp only [unpackMantissa_packComponents, unpackExponent_packComponents, unpackSign_packComponents]
  rw [if_neg finite, if_neg nonzero, UnpackedFloat.finite.injEq]
  refine ⟨rfl, toNat_one_append long short, ?_⟩
  rw [stored]
  rfl

/-- A double that is positive and normal, with bounds on its exponent. -/
def Between (low high : Int) (value : Float) : Prop :=
  Within low high value.toModel.unpack

theorem between_pack (within : Within low high value) (least : -1074 ≤ low) (most : high ≤ 971) :
    Between low high (.ofModel (.pack value)) := by
  rw [Between, Float.Model.unpack, Float.Model.pack, UInt64.toBitVec_ofBitVec, unpack_pack within least most]
  exact within

theorem zero_eq : (0 : Float) = .ofModel (.pack (.zero .positive)) := by decide +kernel

variable {value left right : Float}

theorem Between.ne_zero (between : Between low high value) : value ≠ 0 := by
  rintro rfl
  obtain ⟨_, _, _, same, _⟩ := between
  cases same

theorem Between.mul (first : Between low high left) (second : Between low' high' right) (least : -1126 ≤ low + low')
    (most : high + high' ≤ 917) : Between (low + low' + 52) (high + high' + 54) (left * right) :=
  between_pack (within_mul first second least) (by omega) (by omega)

theorem Between.div (first : Between low high left) (second : Between low' high' right) (least : -1021 ≤ low - high')
    (most : high - low' ≤ 1022) : Between (low - high' - 53) (high - low' - 51) (left / right) :=
  between_pack (within_div first second least) (by omega) (by omega)

theorem zero_div_of_between (divisor : Between low high right) : UInt64.toFloat 0 / right = 0 := by
  obtain ⟨_, _, _, same, _⟩ := divisor
  change Float.ofModel (.pack (UnpackedFloat.div .binary64 (UInt64.toFloat 0).toModel.unpack right.toModel.unpack)) = 0
  have dividend : (UInt64.toFloat 0).toModel.unpack = .zero .positive := rfl
  rw [same, dividend, zero_eq]
  rfl

theorem between_toFloat {number : UInt64} (positive : number ≠ 0) : Between (-52) 12 number.toFloat :=
  between_pack (within_ofNat (fun zero => positive (UInt64.toNat_inj.mp zero)) number.toNat_lt) (by decide) (by decide)

theorem between_one : Between (-52) (-52) (Float.ofBits 0x3FF0000000000000) :=
  ⟨2 ^ 52, -52, by decide, rfl, by decide, by decide, by decide, by decide⟩

/-- A number that fits a double is read as sixty-four bits and multiplied by the zeroth power of ten. -/
theorem between_natToFloat {number : Nat} (positive : number ≠ 0) (small : number < 2 ^ 53) :
    Between (-52) 14 number.toFloat := by
  have whole : number.toUInt64 ≠ 0 := by
    intro zero
    have same : number.toUInt64.toNat = number := UInt64.toNat_ofNat_of_lt' (Nat.lt_trans small (by decide))
    rw [zero] at same
    exact positive same.symm
  have scaled : number.toFloat = number.toUInt64.toFloat * Float.ofBits 0x3FF0000000000000 := by
    change Float.ofScientific number false 0 = _
    rw [Float.ofScientific, dif_pos ⟨small, by decide⟩]
    rfl
  rw [scaled]
  exact (between_toFloat whole).mul between_one (by decide) (by decide)

/-- Over a number of seconds, some work is never rounded down to no work. -/
theorem toFloat_div_eq_zero_iff {work : UInt64} {seconds : Nat} (positive : seconds ≠ 0) (small : seconds < 2 ^ 53) :
    work.toFloat / seconds.toFloat = 0 ↔ work = 0 := by
  have divisor := between_natToFloat positive small
  constructor
  · intro vanishes
    by_contra nonzero
    exact ((between_toFloat nonzero).div divisor (by decide) (by decide)).ne_zero vanishes
  · rintro rfl
    exact zero_div_of_between divisor

end Mintage.Binary64
