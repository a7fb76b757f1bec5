import Mintage.Proofs.CoinOrigins

/-! The coin view as a map from outpoints to coins. The view keeps the outputs of a transaction in one entry, spends
them in place and drops the entry with its last one; on the map a transaction takes away what it spends, then
whatever has its own name, and puts its outputs there. -/

namespace Mintage
open Sequencing

/-- Unspent outputs, with their origin, by the outpoints that name them. -/
abbrev UtxoMap := OutPoint → Option Coin

namespace UtxoMap

def spend (map : UtxoMap) (points : List OutPoint) : UtxoMap := fun point =>
  if point ∈ points then none else map point

/-- Removes all outputs of one transaction. -/
def forget (map : UtxoMap) (txid : Hash256) : UtxoMap := fun point =>
  if point.txid = txid then none else map point

/-- Puts each output of a transaction where its name and its position say. -/
def create (map : UtxoMap) (tx : Transaction) (height : Nat) : UtxoMap := fun point =>
  let output? := if point.txid = tx.txid then tx.outputs[point.index.toNat]? else none
  (output?.map fun output => ⟨height, tx.isCoinbase, tx.isCoinstake, output⟩).or (map point)

def update (map : UtxoMap) (tx : Transaction) (height : Nat) : UtxoMap :=
  ((map.spend tx.spent).forget tx.txid).create tx height

/-- The value of one outpoint, nothing if it is spent or unknown. -/
def worth (map : UtxoMap) (point : OutPoint) : Int :=
  (map point).elim 0 fun coin => coin.output.value.toInt

/-- The value of the outputs that a transaction spends, each counted as often as it is listed. -/
def inputs (map : UtxoMap) (tx : Transaction) : Int :=
  (tx.spent.map map.worth).sum

/-- What a transaction leaves to the coinbase. Coinbases and coinstakes leave nothing. -/
def fee (map : UtxoMap) (tx : Transaction) : Int :=
  if tx.isCoinbase || tx.isCoinstake then 0 else map.inputs tx - tx.paid

end UtxoMap

/-- The value is money: not negative, and not more than there can be. -/
def TxOutput.IsMoney (output : TxOutput) : Prop :=
  0 ≤ output.value.toInt ∧ output.value.toInt ≤ Amount.maxMoney.toInt

instance (output : TxOutput) : Decidable output.IsMoney :=
  inferInstanceAs (Decidable (_ ∧ _))

theorem Transaction.checkOutputs_eq_ok_iff_isMoney (tx : Transaction) :
    tx.checkOutputs = .ok () ↔
      (∀ output ∈ tx.outputs, output.IsMoney) ∧ tx.paid ≤ Amount.maxMoney.toInt := by
  simp only [tx.checkOutputs_eq_ok_iff, Amount.inRange_iff, TxOutput.IsMoney]

namespace Params

/-- The outpoint names a coin that is worth money and, if it was generated, old enough. -/
def Offered (params : Params) (map : UtxoMap) (height : Nat) (point : OutPoint) : Prop :=
  ∃ coin, map point = some coin ∧ coin.output.IsMoney ∧
    (coin.coinbase = true ∨ coin.coinstake = true → coin.height + params.maturity ≤ height)

/-- What the rules demand of one transaction, in exact sums. -/
structure Allows (params : Params) (map : UtxoMap) (height : Nat) (tx : Transaction) : Prop where
  outputs : ∀ output ∈ tx.outputs, output.IsMoney
  outputTotal : tx.paid ≤ Amount.maxMoney.toInt
  inputs : ∀ point ∈ tx.spent, params.Offered map height point
  inputTotals : ∀ count, ((tx.spent.take count).map map.worth).sum ≤ Amount.maxMoney.toInt
  covered : tx.isCoinbase = false → tx.isCoinstake = false → tx.paid ≤ map.inputs tx

variable {params : Params} {map : UtxoMap} {height : Nat} {tx : Transaction}

theorem Offered.worth_nonneg {point : OutPoint} (offered : params.Offered map height point) : 0 ≤ map.worth point := by
  obtain ⟨coin, held, money, _⟩ := offered
  rw [UtxoMap.worth, held]
  exact money.1

/-- No part of the inputs is worth more than all of them. -/
theorem inputTotals_iff (offered : ∀ point ∈ tx.spent, params.Offered map height point) :
    (∀ count, ((tx.spent.take count).map map.worth).sum ≤ Amount.maxMoney.toInt) ↔
      map.inputs tx ≤ Amount.maxMoney.toInt := by
  constructor
  · intro every
    have whole := every tx.spent.length
    rwa [List.take_length] at whole
  · intro whole count
    have positive : ∀ worth ∈ tx.spent.map map.worth, 0 ≤ worth := by
      intro worth member
      obtain ⟨point, listed, rfl⟩ := List.mem_map.mp member
      exact (offered point listed).worth_nonneg
    exact Int.le_trans (((List.take_sublist count tx.spent).map map.worth).sum_le_sum positive) whole

namespace Allows

variable (allowed : params.Allows map height tx)
include allowed

theorem inputs_le : map.inputs tx ≤ Amount.maxMoney.toInt :=
  (inputTotals_iff allowed.inputs).mp allowed.inputTotals

theorem fee_nonneg : 0 ≤ map.fee tx := by
  rw [UtxoMap.fee]
  split
  next => exact Int.le_refl 0
  next ordinary =>
    rw [Bool.or_eq_true, not_or, Bool.not_eq_true, Bool.not_eq_true] at ordinary
    exact Int.sub_nonneg_of_le (allowed.covered ordinary.1 ordinary.2)

theorem fee_le : map.fee tx ≤ Amount.maxMoney.toInt := by
  have paid : 0 ≤ tx.paid := by
    apply List.sum_nonneg
    intro number member
    obtain ⟨output, listed, rfl⟩ := List.mem_map.mp member
    exact (allowed.outputs output listed).1
  have inputs := allowed.inputs_le
  rw [UtxoMap.fee]
  split
  next => decide
  next => omega

theorem exists_due : ∃ due : Amount, due.toInt = map.fee tx := by
  obtain ⟨lower, upper⟩ := Amount.fits_of_le allowed.fee_nonneg allowed.fee_le
  exact ⟨Int64.ofInt (map.fee tx), Int64.toInt_ofInt_of_le lower upper⟩

end Allows

end Params

namespace CoinView

/-- The map that a view stands for. -/
def utxos (view : CoinView) : UtxoMap :=
  view.coin?

/-- Every entry is found under the name of its own transaction. -/
def Keyed (view : CoinView) : Prop :=
  ∀ txid coins, view.get? txid = some coins → coins.txid = txid

variable {view : CoinView} {tx : Transaction}

theorem keyed_empty : ({} : CoinView).Keyed := by
  intro txid coins held
  simp [get?] at held

theorem Keyed.insert (keyed : view.Keyed) (tx : Transaction) (height : Nat) : (view.insert tx height).Keyed := by
  intro txid coins held
  rw [get?_insert] at held
  split at held
  next same =>
    obtain rfl := Option.some.inj held
    rw [Coins.txid_ofTransaction, same]
  next => exact keyed txid coins held

theorem Keyed.spend (keyed : view.Keyed) (point : OutPoint) : (view.spend point).Keyed := by
  intro txid coins held
  rw [get?_spend] at held
  split at held
  · obtain ⟨left, _⟩ := Option.filter_eq_some_iff.mp held
    obtain ⟨before, found, rfl⟩ := Option.map_eq_some_iff.mp left
    rw [Coins.txid_spend]
    exact keyed txid before found
  · exact keyed txid coins held

theorem Keyed.spendAll (keyed : view.Keyed) (points : List OutPoint) : (view.spendAll points).Keyed := by
  induction points generalizing view with
  | nil => exact keyed
  | cons point rest ih => exact ih (keyed.spend point)

theorem Keyed.update (keyed : view.Keyed) (tx : Transaction) (height : Nat) : (view.update tx height).Keyed := by
  rw [update_eq]
  exact (keyed.spendAll tx.spent).insert tx height

/-- Updating a view updates its map, also where entries go in the middle of it or are replaced. -/
theorem utxos_update (view : CoinView) (tx : Transaction) (height : Nat) :
    (view.update tx height).utxos = view.utxos.update tx height := by
  funext point
  simp only [utxos, UtxoMap.update, UtxoMap.create, UtxoMap.forget, UtxoMap.spend]
  rw [coin?_update]
  by_cases own : tx.txid = point.txid
  · rw [if_pos own, if_pos own.symm, if_pos own.symm, Option.or_none]
  · rw [if_neg own, if_neg (Ne.symm own), if_neg (Ne.symm own), Option.map_none, Option.none_or]

theorem worth_utxos (view : CoinView) : view.utxos.worth = view.valueAt := by
  funext point
  rw [UtxoMap.worth, utxos]
  cases held : view.coin? point with
  | some coin => rw [valueAt_of_coin? held, Option.elim_some]
  | none => rw [valueAt, output?_eq_map_coin?, held, Option.map_none, Option.elim_none, Option.elim_none]

theorem inputs_utxos (view : CoinView) (tx : Transaction) : view.utxos.inputs tx = view.listed tx := by
  rw [UtxoMap.inputs, worth_utxos, listed]

theorem fee_utxos (view : CoinView) (tx : Transaction) : view.utxos.fee tx = view.feePaid tx := by
  rw [UtxoMap.fee, inputs_utxos, feePaid]

end CoinView

namespace Params

variable {params : Params} {view : CoinView} {height : Nat} {tx : Transaction}

theorem offered_utxos_iff {point : OutPoint} :
    params.Offered view.utxos height point ↔ params.Spendable view height point := by
  rw [spendable_iff, Offered, CoinView.utxos]
  refine exists_congr fun coin => and_congr_right fun _ => ?_
  rw [Ripe, checkMaturity_eq_ok_iff, Amount.inRange_iff, and_comm, TxOutput.IsMoney]

/-- A transaction is charged exactly if the rules allow it, and then the exact difference of its sums. -/
theorem fee_eq_ok_iff_allows {due : Amount} :
    params.fee view tx height = .ok due ↔
      params.Allows view.utxos height tx ∧ due.toInt = view.utxos.fee tx := by
  have inputs : (∀ point ∈ tx.spent, params.Spendable view height point) ↔
      ∀ point ∈ tx.spent, params.Offered view.utxos height point := by
    simp only [offered_utxos_iff]
  rw [fee_eq_ok_iff, tx.checkOutputs_eq_ok_iff_isMoney, inputs, ← CoinView.inputs_utxos, ← CoinView.fee_utxos]
  constructor
  · intro ⟨⟨money, total⟩, offered, bound, positive, value⟩
    refine ⟨⟨money, total, offered, (inputTotals_iff offered).mpr bound, ?_⟩, value⟩
    intro ordinary unstaked
    rw [UtxoMap.fee, ordinary, unstaked] at positive
    exact Int.le_of_sub_nonneg positive
  · intro ⟨allowed, value⟩
    exact ⟨⟨allowed.outputs, allowed.outputTotal⟩, allowed.inputs, allowed.inputs_le, allowed.fee_nonneg, value⟩

/-- A transaction that the rules forbid leaves the view as it is. Any other does to the view's map what it says: the
outputs that it lists go, then all under its own name, and its outputs come. -/
theorem apply_refines_map (params : Params) (keyed : view.Keyed) (tx : Transaction) (height : Nat) :
    (∃ cause, params.apply tx height view = .error cause view ∧ ¬ params.Allows view.utxos height tx) ∨
    ∃ due after, params.apply tx height view = .ok due after ∧ params.Allows view.utxos height tx ∧
      due.toInt = view.utxos.fee tx ∧
      after.utxos = ((view.utxos.spend tx.spent).forget tx.txid).create tx height ∧ after.Keyed := by
  rw [apply]
  cases charged : params.fee view tx height with
  | error cause =>
    refine .inl ⟨cause, rfl, fun allowed => ?_⟩
    obtain ⟨due, value⟩ := allowed.exists_due
    rw [fee_eq_ok_iff_allows.mpr ⟨allowed, value⟩] at charged
    cases charged
  | ok due =>
    obtain ⟨allowed, value⟩ := fee_eq_ok_iff_allows.mp charged
    exact .inr ⟨due, _, rfl, allowed, value, view.utxos_update tx height, keyed.update tx height⟩

end Params

/-! A transaction that spends both outputs of an entry and lists the second one again, after the entry is gone. -/

namespace Emptied

def origin : Transaction :=
  { inputs := [{ scriptSig := [0x51, 0x51] }], outputs := [⟨100, [0x51]⟩, ⟨60, [0x51]⟩] }

def point (index : UInt32) : OutPoint :=
  ⟨origin.txid, index⟩

def spender : Transaction where
  inputs := [{ previous := point 0 }, { previous := point 1 }, { previous := point 1 }]
  outputs := [⟨150, [0x52]⟩]

def view : CoinView :=
  ({} : CoinView).insert origin 1

theorem repeated_input_empties_entry :
    view.Keyed ∧ ∃ after, Params.regtest.apply spender 11 view = .ok 70 after ∧ after.utxos (point 1) = none ∧
      after.utxos ⟨spender.txid, 0⟩ = some ⟨11, false, false, ⟨150, [0x52]⟩⟩ ∧ after.Keyed := by
  have keyed : view.Keyed := CoinView.keyed_empty.insert origin 1
  have entry : view.get? origin.txid = some (.ofTransaction origin 1) := by
    rw [view, CoinView.get?_insert, if_pos rfl]
  have spent : spender.spent = [point 0, point 1, point 1] := rfl
  have first : view.utxos (point 0) = some ⟨1, true, false, ⟨100, [0x51]⟩⟩ := by
    rw [CoinView.utxos, CoinView.coin?, point, entry]
    rfl
  have second : view.utxos (point 1) = some ⟨1, true, false, ⟨60, [0x51]⟩⟩ := by
    rw [CoinView.utxos, CoinView.coin?, point, entry]
    rfl
  have inputs : view.utxos.inputs spender = 220 := by
    rw [UtxoMap.inputs, spent]
    simp only [List.map_cons, List.map_nil, UtxoMap.worth, first, second]
    rfl
  have offered : ∀ listed ∈ spender.spent, Params.regtest.Offered view.utxos 11 listed := by
    simp only [spent, List.forall_mem_cons]
    refine ⟨⟨_, first, by decide, fun _ => by decide⟩, ⟨_, second, by decide, fun _ => by decide⟩,
      ⟨_, second, by decide, fun _ => by decide⟩, List.forall_mem_nil _⟩
  have allowed : Params.regtest.Allows view.utxos 11 spender := by
    refine ⟨by decide, by decide, offered, (Params.inputTotals_iff offered).mpr ?_, fun _ _ => ?_⟩
    · rw [inputs]
      decide
    · rw [inputs]
      decide
  obtain ⟨_, _, refused⟩ | ⟨due, after, run, _, charged, map, kept⟩ :=
    Params.regtest.apply_refines_map keyed spender 11
  · exact absurd allowed refused
  · have fee : view.utxos.fee spender = 70 := by
      rw [UtxoMap.fee, inputs]
      rfl
    obtain rfl : due = 70 := Int64.toInt_inj.mp (charged.trans fee)
    refine ⟨keyed, after, run, ?_, ?_, kept⟩
    · have beyond : spender.outputs.length ≤ (point 1).index.toNat := by decide
      simp [map, UtxoMap.create, UtxoMap.forget, UtxoMap.spend, spent, beyond]
    · rw [map, UtxoMap.create, if_pos rfl]
      rfl

end Emptied
end Mintage
