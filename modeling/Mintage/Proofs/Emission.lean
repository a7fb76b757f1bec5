import Mathlib.Algebra.BigOperators.Intervals
import Mathlib.Algebra.Order.BigOperators.Group.Finset
import Mathlib.Data.Nat.Digits.Lemmas
import Mintage.Proofs.Amounts

/-! All the money that blocks may ever create. The heights between two halvings make an era, in which every block
creates the same amount, and the halved rewards of all eras add up to twice the reward less the ones among its
binary digits. -/

namespace Mintage

/-- A number and its halves, rounded down, add up to twice the number less its ones: the lowest digit is what one
halving loses. -/
theorem sum_halves {n count : Nat} (small : n < 2 ^ count) :
    ∑ halvings ∈ Finset.range count, n / 2 ^ halvings + (Nat.digits 2 n).sum = 2 * n := by
  induction count generalizing n with
  | zero =>
    have zero : n = 0 := by simpa using small
    simp [zero]
  | succ count ih =>
    obtain rfl | positive := Nat.eq_zero_or_pos n
    · simp
    have half : n / 2 < 2 ^ count := by
      rw [Nat.pow_succ] at small
      omega
    have later : ∀ halvings, n / 2 ^ (halvings + 1) = n / 2 / 2 ^ halvings := by
      intro halvings
      rw [Nat.pow_succ', Nat.div_div_eq_div_mul]
    have rest := ih half
    rw [Finset.sum_range_succ', Nat.digits_def' (by decide) positive, List.sum_cons]
    simp only [later, Nat.pow_zero, Nat.div_one]
    omega

namespace Params

variable (params : Params)

/-- The blocks from one halving to the next. -/
def era : Nat :=
  max params.halvingInterval 1

/-- What the blocks below a height may create together. -/
def issued (height : Nat) : Int :=
  ∑ earlier ∈ Finset.range height, (params.subsidy earlier).toInt

/-- The cut after sixty-four halvings changes nothing, since no reward outlasts sixty-three of them. -/
theorem toInt_subsidy (reward : 0 ≤ params.reward) (height : Nat) :
    (params.subsidy height).toInt = (params.reward.toInt.toNat / 2 ^ (height / params.era) : Nat) := by
  rw [Int64.le_iff_toInt_le, Int64.toInt_zero] at reward
  have bound := params.reward.toInt_lt
  have exact_ : params.reward.toInt = params.reward.toInt.toNat := (Int.toNat_of_nonneg reward).symm
  have schedule : params.subsidy height =
      if height / params.era ≥ 64 then 0 else Int64.ofInt (params.reward.toInt >>> (height / params.era)) := rfl
  rw [schedule]
  generalize params.reward.toInt.toNat = whole at exact_ ⊢
  split
  next gone =>
    have small : whole < 2 ^ (height / params.era) :=
      Nat.lt_of_lt_of_le (m := 2 ^ 63) (by omega) (Nat.pow_le_pow_right (by decide) (by omega))
    rw [Nat.div_eq_of_lt small]
    rfl
  next =>
    have halved : params.reward.toInt >>> (height / params.era) = (whole / 2 ^ (height / params.era) : Nat) := by
      rw [Int.shiftRight_eq_div_pow, exact_]
      norm_cast
    have lower := Int.natCast_nonneg (whole / 2 ^ (height / params.era))
    have upper := Int.ofNat_le.mpr (Nat.div_le_self whole (2 ^ (height / params.era)))
    rw [halved, Int64.toInt_ofInt_of_le (by omega) (by omega)]

theorem subsidy_anti (reward : 0 ≤ params.reward) {height later : Nat} (order : height ≤ later) :
    (params.subsidy later).toInt ≤ (params.subsidy height).toInt := by
  rw [params.toInt_subsidy reward, params.toInt_subsidy reward, Int.ofNat_le]
  apply Nat.div_le_div_left _ (Nat.two_pow_pos _)
  exact Nat.pow_le_pow_right (by decide) (Nat.div_le_div_right order)

theorem issued_mono (reward : 0 ≤ params.reward) {height later : Nat} (order : height ≤ later) :
    params.issued height ≤ params.issued later := by
  apply Finset.sum_le_sum_of_subset_of_nonneg (Finset.range_subset_range.mpr order)
  intro between _ _
  exact params.subsidy_nonneg between reward

/-- Every block of an era creates the same amount. -/
theorem issued_eras (reward : 0 ≤ params.reward) (eras : Nat) :
    params.issued (params.era * eras) =
      params.era * (∑ halvings ∈ Finset.range eras, params.reward.toInt.toNat / 2 ^ halvings : Nat) := by
  have positive : 0 < params.era := Nat.lt_of_lt_of_le Nat.one_pos (Nat.le_max_right _ _)
  induction eras with
  | zero => rfl
  | succ eras ih =>
    have same : ∀ block ∈ Finset.range params.era, (params.subsidy (params.era * eras + block)).toInt =
        (params.reward.toInt.toNat / 2 ^ eras : Nat) := by
      intro block listed
      rw [params.toInt_subsidy reward, Nat.mul_add_div positive, Nat.div_eq_of_lt (Finset.mem_range.mp listed),
        Nat.add_zero]
    rw [issued] at ih ⊢
    rw [Nat.mul_succ, Finset.sum_range_add, ih, Finset.sum_congr rfl same, Finset.sum_const, Finset.card_range,
      nsmul_eq_mul, Finset.sum_range_succ, Nat.cast_add, Int.mul_add]

/-- After sixty-three halvings nothing is left to create. -/
theorem issued_eras_of_le (reward : 0 ≤ params.reward) {eras : Nat} (beyond : 63 ≤ eras) :
    params.issued (params.era * eras) =
      params.era * (2 * params.reward.toInt - (Nat.digits 2 params.reward.toInt.toNat).sum) := by
  have fits : params.reward.toInt.toNat < 2 ^ eras := by
    have bound := params.reward.toInt_lt
    exact Nat.lt_of_lt_of_le (m := 2 ^ 63) (by omega) (Nat.pow_le_pow_right (by decide) beyond)
  have halves := sum_halves fits
  rw [params.issued_eras reward]
  rw [Int64.le_iff_toInt_le, Int64.toInt_zero] at reward
  congr 1
  omega

/-- What is left once every era has passed. -/
theorem issued_of_le (reward : 0 ≤ params.reward) {height : Nat} (beyond : params.era * 63 ≤ height) :
    params.issued height =
      params.era * (2 * params.reward.toInt - (Nat.digits 2 params.reward.toInt.toNat).sum) := by
  have positive : 1 ≤ params.era := Nat.le_max_right _ _
  have above : height ≤ params.era * (63 + height) := calc
    height ≤ 63 + height := Nat.le_add_left _ _
    _ ≤ params.era * (63 + height) := Nat.le_mul_of_pos_left _ positive
  apply Int.le_antisymm
  · rw [← params.issued_eras_of_le reward (Nat.le_add_right 63 height)]
    exact params.issued_mono reward above
  · rw [← params.issued_eras_of_le reward (Nat.le_refl 63)]
    exact params.issued_mono reward beyond

/-- Subsidies fall from era to era but never below zero, and all of them together stay below twice what the first era
creates: by one unit, in each of its blocks, for every one among the binary digits of the reward. -/
theorem emission_is_bounded :
    (∀ params : Params, 0 ≤ params.reward →
      (∀ height, 0 ≤ (params.subsidy height).toInt) ∧
      (∀ height later, height ≤ later → (params.subsidy later).toInt ≤ (params.subsidy height).toInt) ∧
      (∀ height, params.issued height ≤ 2 * (max params.halvingInterval 1 : Nat) * params.reward.toInt) ∧
      ∀ height, max params.halvingInterval 1 * 63 ≤ height → params.issued height =
        (max params.halvingInterval 1 : Nat) *
          (2 * params.reward.toInt - (Nat.digits 2 params.reward.toInt.toNat).sum)) ∧
    ∀ height, main.issued height ≤ Amount.maxMoney.toInt := by
  have bounded : ∀ params : Params, 0 ≤ params.reward → ∀ height,
      params.issued height ≤ 2 * params.era * params.reward.toInt := by
    intro params reward height
    have grown := params.issued_mono reward (Nat.le_add_right height (params.era * 63))
    rw [params.issued_of_le reward (Nat.le_add_left _ height)] at grown
    have digits : 0 ≤ (params.era : Int) * (Nat.digits 2 params.reward.toInt.toNat).sum :=
      Int.mul_nonneg (Int.natCast_nonneg _) (Int.natCast_nonneg _)
    linarith
  refine ⟨?everywhere, ?builtIn⟩
  case everywhere =>
    intro params reward
    refine ⟨?positive, ?falling, bounded params reward, ?total⟩
    case positive =>
      intro height
      exact params.subsidy_nonneg height reward
    case falling =>
      intro height later order
      exact params.subsidy_anti reward order
    case total =>
      intro height beyond
      exact params.issued_of_le reward beyond
  case builtIn =>
    intro height
    have cap : 2 * (main.era : Int) * main.reward.toInt = Amount.maxMoney.toInt := by decide
    rw [← cap]
    exact bounded main (by decide) height

/-- The reward of the main network is odd after nine halvings, so a little of the cap is never reached. -/
theorem main_stops_short_of_cap :
    0 ≤ main.reward ∧ main.issued (210000 * 63) = 2099999997690000 ∧ Amount.maxMoney.toInt = 2100000000000000 := by
  have reward : 0 ≤ main.reward := by decide
  have total := (emission_is_bounded.1 main reward).2.2.2 (210000 * 63) (by decide)
  refine ⟨reward, ?_, Amount.toInt_maxMoney⟩
  rw [total]
  have ones : (Nat.digits 2 main.reward.toInt.toNat).sum = 11 := by
    have whole : main.reward.toInt.toNat = 5000000000 := by decide
    rw [whole]
    norm_num
  rw [ones]
  decide

end Params
end Mintage
