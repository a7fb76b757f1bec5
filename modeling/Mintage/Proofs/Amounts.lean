import Mathlib.Algebra.Order.BigOperators.Group.List
import Mathlib.Algebra.Ring.Int.Defs
import Mintage.Execution

/-! Amounts as integers. Within the range of money the machine's sums are exact, so
the rules can be accounted for without a word about overflow. -/

namespace Mintage

namespace Amount

theorem toInt_maxMoney : maxMoney.toInt = 2100000000000000 := by decide

theorem inRange_iff {value : Amount} :
    value.inRange = true ↔ 0 ≤ value.toInt ∧ value.toInt ≤ maxMoney.toInt := by
  simp only [inRange, Bool.and_eq_true, decide_eq_true_eq, Int64.le_iff_toInt_le, Int64.toInt_zero]

/-- Two amounts of money fit a word together. -/
theorem toInt_sum {left right : Amount} (first : left.inRange = true) (second : right.inRange = true) :
    (left + right).toInt = left.toInt + right.toInt := by
  rw [inRange_iff, toInt_maxMoney] at first second
  rw [Int64.toInt_add]
  exact Int.bmod_eq_of_le (by omega) (by omega)

/-- An amount less a smaller one does not wrap around. -/
theorem toInt_difference {left right : Amount} (negative : 0 ≤ right.toInt) (less : right.toInt ≤ left.toInt) :
    (left - right).toInt = left.toInt - right.toInt := by
  have bound := left.toInt_lt
  rw [Int64.toInt_sub]
  exact Int.bmod_eq_of_le (by omega) (by omega)

theorem toInt_add (left right : Amount) :
    (left.add right).toInt = max (-2 ^ 63) (min (2 ^ 63 - 1) (left.toInt + right.toInt)) := by
  simp only [add, Int64.ofIntClamp]
  split
  next above =>
    split
    next below =>
      rw [Int64.toInt_ofIntLE]
      rw [Int64.toInt_minValue] at above
      rw [Int64.toInt_maxValue] at below
      omega
    next beyond =>
      rw [Int64.toInt_maxValue] at beyond ⊢
      omega
  next under =>
    rw [Int64.toInt_minValue] at under ⊢
    omega

@[simp] protected theorem add_zero (value : Amount) : value.add 0 = value := by
  have lower := value.le_toInt
  have upper := value.toInt_lt
  rw [← Int64.toInt_inj, toInt_add, Int64.toInt_zero]
  omega

@[simp] protected theorem zero_add (value : Amount) : Amount.add 0 value = value := by
  rw [add, Int.add_comm]
  exact value.add_zero

/-- The number is that of an amount. -/
def Fits (n : Int) : Prop :=
  -2 ^ 63 ≤ n ∧ n < 2 ^ 63

instance (n : Int) : Decidable (Fits n) :=
  inferInstanceAs (Decidable (-2 ^ 63 ≤ n ∧ n < 2 ^ 63))

theorem fits_of_le {n : Int} (positive : 0 ≤ n) (bound : n ≤ maxMoney.toInt) : Fits n := by
  rw [toInt_maxMoney] at bound
  exact ⟨by omega, by omega⟩

theorem toInt_add_of_fits {left right : Amount} (fits : Fits (left.toInt + right.toInt)) :
    (left.add right).toInt = left.toInt + right.toInt := by
  obtain ⟨lower, upper⟩ := fits
  rw [toInt_add]
  omega

theorem toInt_add_of_le {left right : Amount} (first : 0 ≤ left.toInt) (second : 0 ≤ right.toInt)
    (bound : left.toInt + right.toInt ≤ maxMoney.toInt) : (left.add right).toInt = left.toInt + right.toInt :=
  toInt_add_of_fits (fits_of_le (Int.add_nonneg first second) bound)

theorem sum_toInt_nonneg {values : List Amount} (positive : ∀ value ∈ values, 0 ≤ value.toInt) :
    0 ≤ (values.map Int64.toInt).sum := by
  apply List.sum_nonneg
  intro number member
  obtain ⟨value, listed, rfl⟩ := List.mem_map.mp member
  exact positive value listed

/-- A sum of amounts that are not negative stops at the largest word. -/
theorem toInt_foldl_add (values : List Amount) (start : Amount) (positive : ∀ value ∈ values, 0 ≤ value.toInt)
    (counted : 0 ≤ start.toInt) :
    (values.foldl add start).toInt = min (2 ^ 63 - 1) (start.toInt + (values.map Int64.toInt).sum) := by
  induction values generalizing start with
  | nil =>
    have bound := start.toInt_lt
    simp only [List.foldl_nil, List.map_nil, List.sum_nil]
    omega
  | cons value rest ih =>
    obtain ⟨first, others⟩ := List.forall_mem_cons.mp positive
    have later := sum_toInt_nonneg others
    have step := toInt_add start value
    rw [List.foldl_cons, ih _ others (by omega)]
    simp only [List.map_cons, List.sum_cons]
    omega

theorem toInt_total_of_fits {values : List Amount} (positive : ∀ value ∈ values, 0 ≤ value.toInt)
    (fits : Fits (values.map Int64.toInt).sum) : (total values).toInt = (values.map Int64.toInt).sum := by
  have sum := toInt_foldl_add values 0 positive (by decide)
  have upper := fits.2
  rw [total, sum, Int64.toInt_zero]
  omega

theorem toInt_total_of_le {values : List Amount} (positive : ∀ value ∈ values, 0 ≤ value.toInt)
    (bound : (values.map Int64.toInt).sum ≤ maxMoney.toInt) : (total values).toInt = (values.map Int64.toInt).sum :=
  toInt_total_of_fits positive (fits_of_le (sum_toInt_nonneg positive) bound)

/-- Sums that may wrap around are exact as well where they fit. -/
theorem toInt_foldl_sum (values : List Amount) (start : Amount) (positive : ∀ value ∈ values, 0 ≤ value.toInt)
    (counted : 0 ≤ start.toInt) (fits : Fits (start.toInt + (values.map Int64.toInt).sum)) :
    (values.foldl (· + ·) start).toInt = start.toInt + (values.map Int64.toInt).sum := by
  induction values generalizing start with
  | nil => simp
  | cons value rest ih =>
    obtain ⟨first, others⟩ := List.forall_mem_cons.mp positive
    have later := sum_toInt_nonneg others
    obtain ⟨_, upper⟩ := fits
    simp only [List.map_cons, List.sum_cons] at upper ⊢
    have step : (start + value).toInt = start.toInt + value.toInt := by
      rw [Int64.toInt_add]
      exact Int.bmod_eq_of_le (by omega) (by omega)
    rw [List.foldl_cons, ih _ others (by omega) ⟨by omega, by omega⟩, step]
    omega

end Amount

namespace Params

/-- The subsidy is never negative where the reward is not. -/
theorem subsidy_nonneg (params : Params) (height : Nat) (reward : 0 ≤ params.reward) :
    0 ≤ (params.subsidy height).toInt := by
  rw [Int64.le_iff_toInt_le, Int64.toInt_zero] at reward
  have bound := params.reward.toInt_lt
  simp only [subsidy]
  split
  · exact Int.le_refl 0
  · have halved := Int.shiftRight_eq_div_pow params.reward.toInt (height / max params.halvingInterval 1)
    have lower : 0 ≤ params.reward.toInt >>> (height / max params.halvingInterval 1) := by
      rw [halved]
      exact Int.ediv_nonneg reward (Int.natCast_nonneg _)
    have upper : params.reward.toInt >>> (height / max params.halvingInterval 1) ≤ params.reward.toInt := by
      rw [halved]
      exact Int.ediv_le_self _ reward
    rw [Int64.toInt_ofInt_of_le (by omega) (by omega)]
    exact lower

end Params
end Mintage
