import Mintage.Proofs.ExecutionRules

/-! Unspent outputs together with what the maturity rule asks about their origin. A transaction's fee depends on
nothing else in a view, so a view with the same coins charges it the same. -/

namespace Mintage

/-- An unspent output and where it comes from. -/
structure Coin where
  height : Nat
  coinbase : Bool
  coinstake : Bool
  output : TxOutput

namespace Coins

def coin? (coins : Coins) (index : Nat) : Option Coin :=
  (coins.output? index).map fun output => ⟨coins.height, coins.coinbase, coins.coinstake, output⟩

theorem coin?_spend (coins : Coins) (spent index : Nat) :
    (coins.spend spent).coin? index = if spent = index then none else coins.coin? index := by
  simp only [coin?, output?_spend]
  split
  · rfl
  · rfl

theorem coin?_of_isSpent {coins : Coins} (gone : coins.isSpent = true) (index : Nat) : coins.coin? index = none := by
  rw [coin?, output?_of_isSpent gone, Option.map_none]

theorem coin?_ofTransaction (tx : Transaction) (height index : Nat) :
    (ofTransaction tx height).coin? index =
      tx.outputs[index]?.map fun output => ⟨height, tx.isCoinbase, tx.isCoinstake, output⟩ := by
  rw [coin?, output?_ofTransaction]
  rfl

end Coins

namespace CoinView

def coin? (view : CoinView) (point : OutPoint) : Option Coin :=
  (view.get? point.txid).bind fun coins => coins.coin? point.index.toNat

theorem coin?_spend (view : CoinView) (spent point : OutPoint) :
    (view.spend spent).coin? point = if spent = point then none else view.coin? point := by
  have reads : ReadsUnspent Coins.coin? := ⟨Coins.coin?_spend, fun _ => Coins.coin?_of_isSpent⟩
  exact reads.bind_spend view spent point

theorem coin?_spendAll (view : CoinView) (points : List OutPoint) (point : OutPoint) :
    (view.spendAll points).coin? point = if point ∈ points then none else view.coin? point := by
  induction points generalizing view with
  | nil => simp [spendAll]
  | cons first rest ih =>
    have step : view.spendAll (first :: rest) = (view.spend first).spendAll rest := rfl
    rw [step, ih, coin?_spend]
    by_cases later : point ∈ rest
    · simp [later]
    · by_cases same : first = point
      · simp [same]
      · simp [later, same, Ne.symm same]

/-- A transaction puts all its outputs under its own name and takes what it spends from under the others. -/
theorem coin?_update (view : CoinView) (tx : Transaction) (height : Nat) (point : OutPoint) :
    (view.update tx height).coin? point =
      if tx.txid = point.txid then
        tx.outputs[point.index.toNat]?.map fun output => ⟨height, tx.isCoinbase, tx.isCoinstake, output⟩
      else if point ∈ tx.spent then none
      else view.coin? point := by
  rw [update_eq, coin?, get?_insert]
  by_cases own : tx.txid = point.txid
  · rw [if_pos own, if_pos own, Option.bind_some, Coins.coin?_ofTransaction]
  · rw [if_neg own, if_neg own]
    exact coin?_spendAll view tx.spent point

theorem get?_update_eq_none {view : CoinView} {tx : Transaction} {height : Nat} {txid : Hash256}
    (unknown : view.get? txid = none) (other : tx.txid ≠ txid) : (view.update tx height).get? txid = none := by
  rw [update_eq, get?_insert, if_neg other]
  generalize tx.spent = points
  induction points generalizing view with
  | nil => exact unknown
  | cons first rest ih =>
    have step : view.spendAll (first :: rest) = (view.spend first).spendAll rest := rfl
    rw [step]
    refine ih ?_
    rw [get?_spend, unknown]
    split
    · rfl
    · rfl

theorem output?_eq_map_coin? (view : CoinView) (point : OutPoint) :
    view.output? point = (view.coin? point).map Coin.output := by
  rw [output?, coin?]
  cases view.get? point.txid with
  | none => rfl
  | some coins =>
    rw [Option.bind_some, Option.bind_some, Coins.coin?, Option.map_map]
    exact Option.map_id'.symm

theorem valueAt_of_coin? {view : CoinView} {point : OutPoint} {coin : Coin} (held : view.coin? point = some coin) :
    view.valueAt point = coin.output.value.toInt := by
  rw [valueAt, output?_eq_map_coin?, held, Option.map_some, Option.elim_some]

end CoinView

namespace Params

/-- Old enough to be spent at `height`, and worth money. -/
def Ripe (params : Params) (height : Nat) (coin : Coin) : Prop :=
  params.checkMaturity { height := coin.height, coinbase := coin.coinbase, coinstake := coin.coinstake, outputs := [] }
      height = .ok () ∧
    coin.output.value.inRange = true

theorem spendable_iff {params : Params} {view : CoinView} {height : Nat} {point : OutPoint} :
    params.Spendable view height point ↔ ∃ coin, view.coin? point = some coin ∧ params.Ripe height coin := by
  constructor
  · intro ⟨coins, output, entry, mature, unspent, inside⟩
    refine ⟨⟨coins.height, coins.coinbase, coins.coinstake, output⟩, ?_, mature, inside⟩
    rw [CoinView.coin?, entry, Option.bind_some, Coins.coin?, unspent, Option.map_some]
  · intro ⟨coin, held, mature, inside⟩
    obtain ⟨coins, entry, single⟩ := Option.bind_eq_some_iff.mp held
    obtain ⟨output, unspent, rfl⟩ := Option.map_eq_some_iff.mp single
    exact ⟨coins, output, entry, mature, unspent, inside⟩

/-- A view that holds the coins a transaction spends charges it the same fee. -/
theorem fee_of_coins {params : Params} {view other : CoinView} {tx : Transaction} {height : Nat} {due : Amount}
    (charged : params.fee view tx height = .ok due)
    (held : ∀ point ∈ tx.spent, ∀ coin, view.coin? point = some coin → other.coin? point = some coin) :
    params.fee other tx height = .ok due := by
  obtain ⟨sound, spendable, bound, covered, value⟩ := fee_eq_ok_iff.mp charged
  have ripe : ∀ point ∈ tx.spent, params.Spendable other height point ∧ other.valueAt point = view.valueAt point := by
    intro point member
    obtain ⟨coin, before, ripe⟩ := spendable_iff.mp (spendable point member)
    have after := held point member coin before
    refine ⟨spendable_iff.mpr ⟨coin, after, ripe⟩, ?_⟩
    rw [CoinView.valueAt_of_coin? after, CoinView.valueAt_of_coin? before]
  have listed : other.listed tx = view.listed tx :=
    congrArg List.sum (List.map_congr_left fun point member => (ripe point member).2)
  have paid : other.feePaid tx = view.feePaid tx := by
    rw [CoinView.feePaid, listed, CoinView.feePaid]
  refine fee_eq_ok_iff.mpr ⟨sound, fun point member => (ripe point member).1, ?_, ?_, ?_⟩
  · rw [listed]
    exact bound
  · rw [paid]
    exact covered
  · rw [paid]
    exact value

/-- A transaction with one input leaves what it does not pay out of the coin that it spends. -/
theorem fee_of_single_coin {params : Params} {view : CoinView} {tx : Transaction} {height : Nat} {due : Amount} {point : OutPoint}
    {coin : Coin} (single : tx.spent = [point]) (stake : tx.isCoinstake = false) (sound : tx.checkOutputs = .ok ())
    (held : view.coin? point = some coin) (ripe : params.Ripe height coin)
    (balance : coin.output.value.toInt = tx.paid + due.toInt) (positive : 0 ≤ due.toInt) :
    params.fee view tx height = .ok due := by
  have ordinary : tx.isCoinbase = false := by
    cases kind : tx.isCoinbase with
    | false => rfl
    | true =>
      rw [tx.spent_of_isCoinbase kind] at single
      cases single
  have listed : view.listed tx = coin.output.value.toInt := by
    rw [CoinView.listed, single, List.map_singleton, List.sum_singleton, CoinView.valueAt_of_coin? held]
  have left : view.feePaid tx = due.toInt := by
    rw [CoinView.feePaid, ordinary, stake, listed]
    simp only [Bool.or_self, Bool.false_eq_true, if_false]
    omega
  refine fee_eq_ok_iff.mpr ⟨sound, ?_, ?_, ?_, left.symm⟩
  · rw [single]
    exact List.forall_mem_singleton.mpr (spendable_iff.mpr ⟨coin, held, ripe⟩)
  · rw [listed]
    exact (Amount.inRange_iff.mp ripe.2).2
  · rw [left]
    exact positive

end Params
end Mintage
