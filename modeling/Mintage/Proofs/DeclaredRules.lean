import Mintage.Proofs.UtxoMap

/-! What makes a block acceptable, declared on the map of unspent outputs and in exact sums. The execution checks
prefix sums in machine words, adds fees up to the end of the word and edits the view as it goes; it accepts exactly
the blocks that the declaration allows. -/

namespace Mintage
open Sequencing

/-- What transactions leave to the coinbase, each on the map that those before it leave. -/
def UtxoMap.fees (height : Nat) : UtxoMap → List Transaction → Int
  | _, [] => 0
  | map, tx :: rest => map.fee tx + fees height (map.update tx height) rest

namespace Params

/-- The rules allow the transactions one after another. -/
def AllowsAll (params : Params) (height : Nat) : UtxoMap → List Transaction → Prop
  | _, [] => True
  | map, tx :: rest => params.Allows map height tx ∧ params.AllowsAll height (map.update tx height) rest

/-- What the rules demand of a block. -/
structure AllowsBlock (params : Params) (map : UtxoMap) (height : Nat) (block : Block) : Prop where
  structured : ∃ coinbase rest, block.transactions = coinbase :: rest ∧ coinbase.isCoinbase = true ∧
    (∀ tx ∈ rest, tx.isCoinbase = false) ∧
    ∀ input ∈ coinbase.inputs, 2 ≤ input.scriptSig.length ∧ input.scriptSig.length ≤ 100
  transactions : params.AllowsAll height map block.transactions
  reward : ∀ coinbase ∈ block.coinbase?,
    coinbase.paid ≤ map.fees height block.transactions + (params.subsidy height).toInt

variable {params : Params} {height : Nat} {view : CoinView}

theorem AllowsAll.fees_nonneg {map : UtxoMap} {txs : List Transaction} (allowed : params.AllowsAll height map txs) :
    0 ≤ map.fees height txs := by
  induction txs generalizing map with
  | nil => exact Int.le_refl 0
  | cons tx rest ih => exact Int.add_nonneg allowed.1.fee_nonneg (ih allowed.2)

/-- Fees that are cut off at the end of the word in the middle of a run come out as if they were cut off once. -/
theorem applyAll_eq_ok_iff_allowsAll {txs : List Transaction} {fees all : Amount} (start : 0 ≤ fees.toInt) :
    (∃ after, params.applyAll height txs fees view = .ok all after) ↔
      params.AllowsAll height view.utxos txs ∧
        all.toInt = min (2 ^ 63 - 1) (fees.toInt + view.utxos.fees height txs) := by
  induction txs generalizing fees view with
  | nil =>
    have bound := fees.toInt_lt
    simp only [applyAll, run_pure_eq_ok, AllowsAll, UtxoMap.fees, true_and, exists_and_left, exists_eq', and_true,
      ← Int64.toInt_inj]
    omega
  | cons tx rest ih =>
    simp only [applyAll_cons_eq_ok_iff, fee_eq_ok_iff_allows, AllowsAll, UtxoMap.fees, ← CoinView.utxos_update]
    constructor
    · rintro ⟨after, due, ⟨allowed, value⟩, later⟩
      have positive := allowed.fee_nonneg
      have step := Amount.toInt_add fees due
      -- Fees never go down again, so it does not matter where in the run they are cut off.
      obtain ⟨others, total⟩ := (ih (by omega)).mp ⟨after, later⟩
      have remaining := others.fees_nonneg
      exact ⟨⟨allowed, others⟩, by omega⟩
    · rintro ⟨⟨allowed, others⟩, total⟩
      obtain ⟨due, value⟩ := allowed.exists_due
      have positive := allowed.fee_nonneg
      have remaining := others.fees_nonneg
      have step := Amount.toInt_add fees due
      have more : 0 ≤ (fees.add due).toInt := by omega
      obtain ⟨after, later⟩ := (ih more).mpr ⟨others, by omega⟩
      exact ⟨after, due, ⟨allowed, value⟩, later⟩

/-- The coinbase has passed the check of its outputs by the time its reward is checked, so it cannot claim more than
there is money, and the end of the word is out of its reach. -/
theorem checkReward_eq_ok_iff_of_allowsAll {fees : Amount} {block : Block} {map : UtxoMap} (reward : 0 ≤ params.reward)
    (sound : block.checkStructure = .ok ()) (allowed : params.AllowsAll height map block.transactions)
    (total : fees.toInt = min (2 ^ 63 - 1) (map.fees height block.transactions)) :
    params.checkReward fees height block = .ok () ↔
      ∀ coinbase ∈ block.coinbase?,
        coinbase.paid ≤ map.fees height block.transactions + (params.subsidy height).toInt := by
  obtain ⟨coinbase, rest, listed, holds, _⟩ := Block.checkStructure_eq_ok_iff.mp sound
  have found : block.coinbase? = some coinbase := Block.coinbase?_eq_some_iff.mpr ⟨rest, listed, holds⟩
  have positive := allowed.fees_nonneg
  have first : params.Allows map height coinbase := by
    rw [listed] at allowed
    exact allowed.1
  have passed := coinbase.checkOutputs_eq_ok_iff_isMoney.mpr ⟨first.outputs, first.outputTotal⟩
  have bound := first.outputTotal
  have subsidy := params.subsidy_nonneg height reward
  have claimed : coinbase.totalOutput ≤ fees.add (params.subsidy height) ↔
      coinbase.paid ≤ map.fees height block.transactions + (params.subsidy height).toInt := by
    rw [Amount.toInt_maxMoney] at bound
    rw [Int64.le_iff_toInt_le, coinbase.toInt_totalOutput passed, Amount.toInt_add]
    omega
  rw [checkReward_eq_ok_iff, found]
  simp [passed, claimed]

/-- Execution accepts a block exactly if the rules allow it, and returns its exact fees as far as they fit a word. -/
theorem execute_eq_ok_iff_allowsBlock {block : Block} {fees : Amount} (reward : 0 ≤ params.reward) :
    (∃ after, params.execute block height view = .ok fees after) ↔
      params.AllowsBlock view.utxos height block ∧
        fees.toInt = min (2 ^ 63 - 1) (view.utxos.fees height block.transactions) := by
  have zero : 0 ≤ (0 : Amount).toInt := Int.le_refl 0
  constructor
  · intro ⟨after, run⟩
    obtain ⟨sound, applied, rewarded⟩ := execute_eq_ok_iff.mp run
    obtain ⟨allowed, total⟩ := (applyAll_eq_ok_iff_allowsAll zero).mp ⟨after, applied⟩
    rw [Int64.toInt_zero, Int.zero_add] at total
    have claimed := (checkReward_eq_ok_iff_of_allowsAll reward sound allowed total).mp rewarded
    exact ⟨⟨Block.checkStructure_eq_ok_iff.mp sound, allowed, claimed⟩, total⟩
  · intro ⟨allowed, total⟩
    have sound := Block.checkStructure_eq_ok_iff.mpr allowed.structured
    have rewarded := (checkReward_eq_ok_iff_of_allowsAll reward sound allowed.transactions total).mpr allowed.reward
    have counted : fees.toInt = min (2 ^ 63 - 1) ((0 : Amount).toInt + view.utxos.fees height block.transactions) := by
      rw [Int64.toInt_zero, Int.zero_add]
      exact total
    obtain ⟨after, applied⟩ := (applyAll_eq_ok_iff_allowsAll zero).mpr ⟨allowed.transactions, counted⟩
    exact ⟨after, execute_eq_ok_iff.mpr ⟨sound, applied, rewarded⟩⟩

end Params

/-! A block in which each transaction spends the output of the one before it. -/

namespace Chained

def young : Params :=
  { Params.regtest with maturity := 0 }

def reward : Transaction :=
  { inputs := [{ scriptSig := [0x51, 0x51] }], outputs := [⟨9000000000, [0x51]⟩] }

def pay (txid : Hash256) (value : Amount) : Transaction :=
  { inputs := [{ previous := ⟨txid, 0⟩ }], outputs := [⟨value, [0x51]⟩] }

def payment : Transaction :=
  pay reward.txid 7000000000

def change : Transaction :=
  pay payment.txid 5000000000

def block : Block :=
  { transactions := [reward, payment, change] }

private theorem isCoinbase_pay (txid : Hash256) (value : Amount) : (pay txid value).isCoinbase = false := by
  have real : OutPoint.isNull ⟨txid, 0⟩ = false := by simp [OutPoint.isNull, OutPoint.null]
  exact real

private theorem spent_pay (txid : Hash256) (value : Amount) : (pay txid value).spent = [⟨txid, 0⟩] :=
  Transaction.spent_of_not_isCoinbase (isCoinbase_pay txid value)

private theorem inputs_pay {map : UtxoMap} {txid : Hash256} {coin : Coin} (held : map ⟨txid, 0⟩ = some coin)
    (value : Amount) : map.inputs (pay txid value) = coin.output.value.toInt := by
  rw [UtxoMap.inputs, spent_pay, List.map_singleton, List.sum_singleton, UtxoMap.worth, held, Option.elim_some]

private theorem fee_pay {map : UtxoMap} {txid : Hash256} {coin : Coin} (held : map ⟨txid, 0⟩ = some coin)
    (value : Amount) : map.fee (pay txid value) = coin.output.value.toInt - value.toInt := by
  have stake : (pay txid value).isCoinstake = false := rfl
  have paid : (pay txid value).paid = value.toInt := by simp [pay, Transaction.paid]
  rw [UtxoMap.fee, isCoinbase_pay, stake, inputs_pay held, paid]
  rfl

private theorem allows_pay {map : UtxoMap} {txid : Hash256} {coin : Coin} {value : Amount}
    (held : map ⟨txid, 0⟩ = some coin) (money : coin.output.IsMoney) (recent : coin.height ≤ 1)
    (positive : 0 ≤ value.toInt) (covered : value.toInt ≤ coin.output.value.toInt) :
    young.Allows map 1 (pay txid value) := by
  have paid : (pay txid value).paid = value.toInt := by simp [pay, Transaction.paid]
  have inside : value.toInt ≤ Amount.maxMoney.toInt := Int.le_trans covered money.2
  have offered : ∀ point ∈ (pay txid value).spent, young.Offered map 1 point := by
    rw [spent_pay]
    exact List.forall_mem_singleton.mpr ⟨coin, held, money, fun _ => recent⟩
  refine ⟨List.forall_mem_singleton.mpr ⟨positive, inside⟩, ?_, offered, (Params.inputTotals_iff offered).mpr ?_, ?_⟩
  · rw [paid]
    exact inside
  · rw [inputs_pay held]
    exact money.2
  · intro _ _
    rw [inputs_pay held, paid]
    exact covered

private theorem held_reward (map : UtxoMap) :
    map.update reward 1 ⟨reward.txid, 0⟩ = some ⟨1, true, false, ⟨9000000000, [0x51]⟩⟩ := by
  rw [UtxoMap.update, UtxoMap.create, if_pos rfl]
  rfl

private theorem held_payment (map : UtxoMap) :
    map.update payment 1 ⟨payment.txid, 0⟩ = some ⟨1, false, false, ⟨7000000000, [0x51]⟩⟩ := by
  rw [UtxoMap.update, UtxoMap.create, if_pos rfl, payment, isCoinbase_pay]
  rfl

private theorem fees_block (map : UtxoMap) : map.fees 1 block.transactions = 4000000000 := by
  have minted : map.fee reward = 0 := rfl
  have first : (map.update reward 1).fee payment = 2000000000 := fee_pay (held_reward map) 7000000000
  have second : ((map.update reward 1).update payment 1).fee change = 2000000000 := fee_pay (held_payment _) 5000000000
  simp only [block, UtxoMap.fees, minted, first, second]
  rfl

private theorem allowsBlock (map : UtxoMap) : young.AllowsBlock map 1 block := by
  have none : reward.spent = [] := Transaction.spent_of_isCoinbase rfl
  have offered : ∀ point ∈ reward.spent, young.Offered map 1 point := by simp [none]
  have inputs : map.inputs reward = 0 := by simp [UtxoMap.inputs, none]
  have minted : young.Allows map 1 reward :=
    ⟨by decide, by decide, offered, (Params.inputTotals_iff offered).mpr (by rw [inputs]; decide),
      fun ordinary => absurd ordinary (by decide)⟩
  have first : young.Allows (map.update reward 1) 1 payment :=
    allows_pay (held_reward map) (by decide) (by decide) (by decide) (by decide)
  have second : young.Allows ((map.update reward 1).update payment 1) 1 change :=
    allows_pay (held_payment _) (by decide) (by decide) (by decide) (by decide)
  refine ⟨⟨reward, [payment, change], rfl, rfl, ?_, by decide⟩, ⟨minted, first, second, trivial⟩, ?_⟩
  · simp [payment, change, isCoinbase_pay]
  · intro coinbase found
    cases found
    rw [fees_block]
    decide

theorem chained_payments_are_accepted :
    0 ≤ young.reward ∧ young.AllowsBlock ({} : CoinView).utxos 1 block ∧
      ∃ after, young.execute block 1 {} = .ok 4000000000 after := by
  have reward : 0 ≤ young.reward := by decide
  have total : (4000000000 : Amount).toInt = min (2 ^ 63 - 1) (({} : CoinView).utxos.fees 1 block.transactions) := by
    rw [fees_block]
    decide
  exact ⟨reward, allowsBlock _, (Params.execute_eq_ok_iff_allowsBlock reward).mpr ⟨allowsBlock _, total⟩⟩

end Chained
end Mintage
