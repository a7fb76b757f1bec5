import Mintage.Proofs.CoinSupply
import Mintage.Proofs.Sequencing

/-! What a check of the execution demands when it passes, in exact integers. -/

namespace Mintage
open Sequencing

namespace Amount

theorem inRange_iff_bounds {value : Amount} : value.inRange = true ↔ ¬ value < 0 ∧ ¬ value > maxMoney := by
  simp only [inRange_iff, gt_iff_lt, Int64.lt_iff_toInt_lt, Int64.toInt_zero]
  omega

theorem sum_nonneg (values : List Amount) (inside : ∀ value ∈ values, value.inRange = true) :
    0 ≤ (values.map Int64.toInt).sum :=
  sum_toInt_nonneg fun value listed => (inRange_iff.mp (inside value listed)).1

end Amount

private theorem paid_nonneg {outputs : List TxOutput} (inside : ∀ output ∈ outputs, output.value.inRange = true) :
    0 ≤ (outputs.map fun output => output.value.toInt).sum := by
  have sum := Amount.sum_nonneg (outputs.map TxOutput.value) (by simpa using inside)
  simpa only [List.map_map, Function.comp_def] using sum

theorem checkValues_eq_ok_iff {outputs : List TxOutput} {total : Amount} (start : total.inRange = true) :
    checkValues outputs total = .ok () ↔
      (∀ output ∈ outputs, output.value.inRange = true) ∧
        total.toInt + (outputs.map fun output => output.value.toInt).sum ≤ Amount.maxMoney.toInt := by
  induction outputs generalizing total with
  | nil =>
    have bound := (Amount.inRange_iff.mp start).2
    simp [checkValues, pure_eq_ok, bound]
  | cons output rest ih =>
    simp only [checkValues, guard_eq_ok, List.forall_mem_cons, List.map_cons, List.sum_cons]
    rw [← and_assoc, ← Amount.inRange_iff_bounds]
    constructor
    · intro ⟨first, running, passed⟩
      have running : (total + output.value).inRange = true := by simpa using running
      obtain ⟨inside, bound⟩ := (ih running).mp passed
      rw [Amount.toInt_sum start first] at bound
      exact ⟨⟨first, inside⟩, by omega⟩
    · intro ⟨⟨first, inside⟩, bound⟩
      have later := paid_nonneg inside
      have sum := Amount.toInt_sum start first
      have running : (total + output.value).inRange = true := by
        have lower := (Amount.inRange_iff.mp start).1
        have upper := (Amount.inRange_iff.mp first).1
        rw [Amount.inRange_iff, sum]
        omega
      refine ⟨first, by simpa using running, (ih running).mpr ⟨inside, ?_⟩⟩
      rw [sum]
      omega

namespace Transaction

theorem checkOutputs_eq_ok_iff (tx : Transaction) :
    tx.checkOutputs = .ok () ↔
      (∀ output ∈ tx.outputs, output.value.inRange = true) ∧ tx.paid ≤ Amount.maxMoney.toInt := by
  have start : (0 : Amount).inRange = true := by decide
  rw [checkOutputs, checkValues_eq_ok_iff start, Int64.toInt_zero, Int.zero_add, paid]

theorem paid_nonneg_of_checkOutputs {tx : Transaction} (passed : tx.checkOutputs = .ok ()) : 0 ≤ tx.paid :=
  paid_nonneg (tx.checkOutputs_eq_ok_iff.mp passed).1

/-- A total that passed the check did not stop at the end of the word. -/
theorem toInt_totalOutput {tx : Transaction} (passed : tx.checkOutputs = .ok ()) : tx.totalOutput.toInt = tx.paid := by
  obtain ⟨inside, bound⟩ := tx.checkOutputs_eq_ok_iff.mp passed
  have positive : ∀ value ∈ tx.outputs.map TxOutput.value, 0 ≤ value.toInt := by
    intro value member
    obtain ⟨output, listed, rfl⟩ := List.mem_map.mp member
    exact (Amount.inRange_iff.mp (inside output listed)).1
  have same : ((tx.outputs.map TxOutput.value).map Int64.toInt).sum = tx.paid := by
    rw [List.map_map]
    rfl
  rw [← same] at bound ⊢
  exact Amount.toInt_total_of_le positive bound

end Transaction

theorem Transaction.spent_of_isCoinbase {tx : Transaction} (coinbase : tx.isCoinbase = true) : tx.spent = [] :=
  if_pos coinbase

theorem Transaction.spent_of_not_isCoinbase {tx : Transaction} (ordinary : tx.isCoinbase = false) :
    tx.spent = tx.inputs.map TxInput.previous := by
  rw [spent, ordinary]
  rfl

/-- The value of the outputs that a transaction spends, each counted as often as it is listed. -/
def CoinView.listed (view : CoinView) (tx : Transaction) : Int :=
  (tx.spent.map view.valueAt).sum

/-- What a transaction leaves to the coinbase. Coinbases and coinstakes leave nothing. -/
def CoinView.feePaid (view : CoinView) (tx : Transaction) : Int :=
  if tx.isCoinbase || tx.isCoinstake then 0 else view.listed tx - tx.paid

namespace Params

theorem checkMaturity_eq_ok_iff {params : Params} {coins : Coins} {height : Nat} :
    params.checkMaturity coins height = .ok () ↔
      (coins.coinbase = true ∨ coins.coinstake = true → coins.height + params.maturity ≤ height) := by
  unfold checkMaturity
  split
  next old => simp [pure_eq_ok, old]
  next young =>
    split
    next coinbase => simp [throw_eq_ok, coinbase, young]
    next other =>
      split
      next coinstake => simp [throw_eq_ok, coinstake, young]
      next ordinary => simp [pure_eq_ok, other, ordinary]

/-- The outpoint names an unspent output that has come of age and is worth money. -/
def Spendable (params : Params) (view : CoinView) (height : Nat) (point : OutPoint) : Prop :=
  ∃ coins output, view.get? point.txid = some coins ∧ params.checkMaturity coins height = .ok () ∧
    coins.output? point.index.toNat = some output ∧ output.value.inRange = true

private theorem valueAt_of_output {view : CoinView} {point : OutPoint} {coins : Coins} {output : TxOutput}
    (held : view.get? point.txid = some coins) (unspent : coins.output? point.index.toNat = some output) :
    view.valueAt point = output.value.toInt := by
  simp only [CoinView.valueAt, CoinView.output?, held, Option.bind_some, unspent, Option.elim_some]

theorem Spendable.valueAt_nonneg {params : Params} {view : CoinView} {height : Nat} {point : OutPoint}
    (spendable : params.Spendable view height point) :
    0 ≤ view.valueAt point := by
  obtain ⟨coins, output, held, _, unspent, inside⟩ := spendable
  rw [valueAt_of_output held unspent]
  exact (Amount.inRange_iff.mp inside).1

private theorem inputTotal_cons {params : Params} {view : CoinView} {height : Nat} {input : TxInput}
    {rest : List TxInput} {total sum : Amount} :
    params.inputTotal view height (input :: rest) total = .ok sum ↔
      ∃ coins output, view.get? input.previous.txid = some coins ∧ params.checkMaturity coins height = .ok () ∧
        coins.output? input.previous.index.toNat = some output ∧ output.value.inRange = true ∧
        (total + output.value).inRange = true ∧
        params.inputTotal view height rest (total + output.value) = .ok sum := by
  constructor
  · intro run
    rw [inputTotal] at run
    split at run
    next coins held =>
      obtain ⟨_, mature, run⟩ := bind_eq_ok.mp run
      split at run
      next output unspent =>
        obtain ⟨inside, later⟩ := demand_eq_ok.mp run
        rw [Bool.and_eq_true] at inside
        exact ⟨coins, output, held, mature, unspent, inside.1, inside.2, later⟩
      next => cases run
    next => cases run
  · intro ⟨coins, output, held, mature, unspent, inside, running, later⟩
    rw [inputTotal, held]
    refine bind_eq_ok.mpr ⟨(), mature, ?_⟩
    rw [unspent]
    refine demand_eq_ok.mpr ⟨?_, later⟩
    rw [inside, running, Bool.and_true]

theorem inputTotal_eq_ok_iff {params : Params} {view : CoinView} {height : Nat} {inputs : List TxInput}
    {total sum : Amount} (start : total.inRange = true) :
    params.inputTotal view height inputs total = .ok sum ↔
      (∀ input ∈ inputs, params.Spendable view height input.previous) ∧ sum.inRange = true ∧
        sum.toInt = total.toInt + (inputs.map fun input => view.valueAt input.previous).sum := by
  induction inputs generalizing total with
  | nil =>
    simp only [inputTotal, pure_eq_ok, List.not_mem_nil, false_implies, implies_true, true_and, List.map_nil,
      List.sum_nil, Int.add_zero]
    constructor
    · intro same
      cases same
      exact ⟨start, rfl⟩
    · intro ⟨_, same⟩
      exact (Int64.toInt_inj.mp same).symm
  | cons input rest ih =>
    rw [inputTotal_cons, List.forall_mem_cons, List.map_cons, List.sum_cons]
    constructor
    · intro ⟨coins, output, held, mature, unspent, inside, running, later⟩
      obtain ⟨others, bound, value⟩ := (ih running).mp later
      have first := valueAt_of_output held unspent
      rw [Amount.toInt_sum start inside] at value
      exact ⟨⟨⟨coins, output, held, mature, unspent, inside⟩, others⟩, bound, by omega⟩
    · intro ⟨⟨spendable, others⟩, bound, value⟩
      obtain ⟨coins, output, held, mature, unspent, inside⟩ := spendable
      have first := valueAt_of_output held unspent
      have later : 0 ≤ (rest.map fun input => view.valueAt input.previous).sum := by
        apply List.sum_nonneg
        intro number member
        obtain ⟨other, listed, rfl⟩ := List.mem_map.mp member
        exact (others other listed).valueAt_nonneg
      have sum_ := Amount.toInt_sum start inside
      have running : (total + output.value).inRange = true := by
        have lower := (Amount.inRange_iff.mp start).1
        have upper := (Amount.inRange_iff.mp bound).2
        have single := (Amount.inRange_iff.mp inside).1
        rw [Amount.inRange_iff, sum_]
        omega
      refine ⟨coins, output, held, mature, unspent, inside, running, (ih running).mpr ⟨others, bound, ?_⟩⟩
      rw [sum_]
      omega

private theorem listed_nonneg {params : Params} {view : CoinView} {tx : Transaction} {height : Nat}
    (spendable : ∀ point ∈ tx.spent, params.Spendable view height point) : 0 ≤ view.listed tx := by
  apply List.sum_nonneg
  intro number member
  obtain ⟨point, inside, rfl⟩ := List.mem_map.mp member
  exact (spendable point inside).valueAt_nonneg

private theorem inputTotal_spent {params : Params} {view : CoinView} {tx : Transaction} {height : Nat} {sum : Amount}
    (ordinary : tx.isCoinbase = false) :
    params.inputTotal view height tx.inputs 0 = .ok sum ↔
      (∀ point ∈ tx.spent, params.Spendable view height point) ∧ view.listed tx ≤ Amount.maxMoney.toInt ∧
        sum.toInt = view.listed tx := by
  have start : (0 : Amount).inRange = true := by decide
  have listed : view.listed tx = (tx.inputs.map fun input => view.valueAt input.previous).sum := by
    rw [CoinView.listed, tx.spent_of_not_isCoinbase ordinary, List.map_map]
    rfl
  have spendable : (∀ point ∈ tx.spent, params.Spendable view height point) ↔
      ∀ input ∈ tx.inputs, params.Spendable view height input.previous := by
    simp [tx.spent_of_not_isCoinbase ordinary]
  rw [inputTotal_eq_ok_iff start, ← spendable, ← listed, Int64.toInt_zero, Int.zero_add, Amount.inRange_iff]
  constructor
  · intro ⟨good, ⟨_, upper⟩, value⟩
    exact ⟨good, by omega, value⟩
  · intro ⟨good, upper, value⟩
    have lower := listed_nonneg good
    exact ⟨good, by omega, value⟩

private theorem surplus_eq_ok_iff {view : CoinView} {tx : Transaction} {inputs due : Amount}
    (ordinary : tx.isCoinbase = false) (sound : tx.checkOutputs = .ok ()) (value : inputs.toInt = view.listed tx) :
    (if tx.isCoinstake then (pure 0 : Except RuleError Amount)
      else if inputs < tx.totalOutput then throw (.outputsExceedInputs inputs tx.totalOutput)
      else pure (inputs - tx.totalOutput)) = .ok due ↔
      0 ≤ view.feePaid tx ∧ due.toInt = view.feePaid tx := by
  have paid := tx.toInt_totalOutput sound
  have positive := tx.paid_nonneg_of_checkOutputs sound
  cases stake : tx.isCoinstake with
  | true =>
    simp only [if_true, pure_eq_ok, CoinView.feePaid, stake, Bool.or_true, Int.le_refl, true_and, ← Int64.toInt_inj,
      Int64.toInt_zero]
    exact eq_comm
  | false =>
    simp only [Bool.false_eq_true, if_false, refuse_eq_ok, pure_eq_ok, Int64.not_lt, Int64.le_iff_toInt_le,
      CoinView.feePaid, ordinary, stake, Bool.or_false, paid, value, ← Int64.toInt_inj]
    constructor
    · intro ⟨covered, same⟩
      rw [Amount.toInt_difference (by omega) (by omega)] at same
      exact ⟨by omega, by omega⟩
    · intro ⟨covered, same⟩
      refine ⟨by omega, ?_⟩
      rw [Amount.toInt_difference (by omega) (by omega)]
      omega

theorem fee_eq_ok_iff {params : Params} {view : CoinView} {tx : Transaction} {height : Nat} {due : Amount} :
    params.fee view tx height = .ok due ↔
      tx.checkOutputs = .ok () ∧ (∀ point ∈ tx.spent, params.Spendable view height point) ∧
        view.listed tx ≤ Amount.maxMoney.toInt ∧ 0 ≤ view.feePaid tx ∧ due.toInt = view.feePaid tx := by
  rw [fee, bind_eq_ok]
  cases kind : tx.isCoinbase with
  | true =>
    have none := tx.spent_of_isCoinbase kind
    have bound : (0 : Int) ≤ Amount.maxMoney.toInt := by decide
    simp only [if_true, pure_eq_ok, CoinView.listed, CoinView.feePaid, kind, none, Bool.true_or, List.not_mem_nil,
      false_implies, implies_true, List.map_nil, List.sum_nil, bound, Int.le_refl, true_and]
    constructor
    · intro ⟨_, passed, same⟩
      cases same
      exact ⟨passed, rfl⟩
    · intro ⟨passed, zero⟩
      exact ⟨(), passed, (Int64.toInt_inj.mp zero).symm⟩
  | false =>
    simp only [Bool.false_eq_true, if_false, bind_eq_ok]
    constructor
    · intro ⟨_, sound, inputs, counted, run⟩
      obtain ⟨spendable, bound, value⟩ := (inputTotal_spent kind).mp counted
      exact ⟨sound, spendable, bound, (surplus_eq_ok_iff kind sound value).mp run⟩
    · intro ⟨sound, spendable, bound, result⟩
      have lower := listed_nonneg spendable
      have fits := Amount.toInt_maxMoney
      have value : (Int64.ofInt (view.listed tx)).toInt = view.listed tx :=
        Int64.toInt_ofInt_of_le (by omega) (by omega)
      exact ⟨(), sound, _, (inputTotal_spent kind).mpr ⟨spendable, bound, value⟩,
        (surplus_eq_ok_iff kind sound value).mpr result⟩

theorem apply_eq_ok_iff {params : Params} {tx : Transaction} {height : Nat} {view after : CoinView} {fee : Amount} :
    params.apply tx height view = .ok fee after ↔
      params.fee view tx height = .ok fee ∧ view.update tx height = after := by
  rw [apply]
  cases params.fee view tx height with
  | error broken => simp
  | ok due => simp

theorem applyAll_cons_eq_ok_iff {params : Params} {height : Nat} {tx : Transaction} {rest : List Transaction}
    {fees all : Amount} {view after : CoinView} :
    params.applyAll height (tx :: rest) fees view = .ok all after ↔
      ∃ fee, params.fee view tx height = .ok fee ∧
        params.applyAll height rest (fees.add fee) (view.update tx height) = .ok all after := by
  simp only [applyAll, run_bind_eq_ok, apply_eq_ok_iff]
  constructor
  · intro ⟨fee, _, ⟨due, rfl⟩, later⟩
    exact ⟨fee, due, later⟩
  · intro ⟨fee, due, later⟩
    exact ⟨fee, _, ⟨due, rfl⟩, later⟩

theorem checkReward_eq_ok_iff {params : Params} {fees : Amount} {height : Nat} {block : Block} :
    params.checkReward fees height block = .ok () ↔
      ∃ coinbase, block.coinbase? = some coinbase ∧ coinbase.checkOutputs = .ok () ∧
        coinbase.totalOutput ≤ fees.add (params.subsidy height) := by
  rw [checkReward]
  cases found : block.coinbase? with
  | none =>
    constructor
    · intro run
      cases run
    · intro ⟨_, impossible, _⟩
      cases impossible
  | some coinbase =>
    simp only [bind_eq_ok, refuse_eq_ok, pure_eq_ok, Int64.not_lt, gt_iff_lt, and_true, Option.some.injEq]
    constructor
    · intro ⟨_, sound, bounded⟩
      exact ⟨coinbase, rfl, sound, bounded⟩
    · intro ⟨_, rfl, sound, bounded⟩
      exact ⟨(), sound, bounded⟩

theorem execute_eq_ok_iff {params : Params} {block : Block} {height : Nat} {view after : CoinView} {fees : Amount} :
    params.execute block height view = .ok fees after ↔
      block.checkStructure = .ok () ∧ params.applyAll height block.transactions 0 view = .ok fees after ∧
        params.checkReward fees height block = .ok () := by
  simp only [execute, run_bind_eq_ok, run_ofExcept_eq_ok, run_pure_eq_ok]
  constructor
  · intro success
    obtain ⟨_, _, ⟨sound, rfl⟩, all, _, run, _, _, ⟨rewarded, rfl⟩, rfl, rfl⟩ := success
    exact ⟨sound, run, rewarded⟩
  · intro ⟨sound, run, rewarded⟩
    exact ⟨(), view, ⟨sound, rfl⟩, fees, after, run, (), after, ⟨rewarded, rfl⟩, rfl, rfl⟩

end Params

theorem Block.coinbase?_eq_some_iff {block : Block} {coinbase : Transaction} :
    block.coinbase? = some coinbase ↔ ∃ rest, block.transactions = coinbase :: rest ∧ coinbase.isCoinbase = true := by
  cases listed : block.transactions with
  | nil => simp [coinbase?, listed]
  | cons first rest =>
    simp only [coinbase?, listed, List.head?_cons, Option.filter_eq_some_iff, Option.some.injEq, List.cons.injEq]
    constructor
    · intro ⟨same, holds⟩
      cases same
      exact ⟨rest, ⟨rfl, rfl⟩, holds⟩
    · intro ⟨_, listed, holds⟩
      exact ⟨listed.1, holds⟩

/-- The first transaction is the only coinbase, and its script has the right length. -/
theorem Block.checkStructure_eq_ok_iff {block : Block} :
    block.checkStructure = .ok () ↔
      ∃ coinbase rest, block.transactions = coinbase :: rest ∧ coinbase.isCoinbase = true ∧
        (∀ tx ∈ rest, tx.isCoinbase = false) ∧
        ∀ input ∈ coinbase.inputs, 2 ≤ input.scriptSig.length ∧ input.scriptSig.length ≤ 100 := by
  have single {tx : Transaction} (coinbase : tx.isCoinbase = true) : ∃ input, tx.inputs = [input] := by
    rw [Transaction.isCoinbase] at coinbase
    split at coinbase
    next input listed => exact ⟨input, listed⟩
    next => cases coinbase
  rw [checkStructure]
  cases found : block.coinbase? with
  | none =>
    constructor
    · intro run
      cases run
    · intro ⟨coinbase, rest, listed, holds, _⟩
      rw [Block.coinbase?_eq_some_iff.mpr ⟨rest, listed, holds⟩] at found
      cases found
  | some coinbase =>
    obtain ⟨rest, listed, holds⟩ := Block.coinbase?_eq_some_iff.mp found
    obtain ⟨input, inputs⟩ := single holds
    simp only [guard_eq_ok, refuse_eq_ok, pure_eq_ok, listed, inputs, List.tail_cons, List.head?_cons, Option.map_some,
      Option.getD_some, List.cons.injEq, List.any_eq_true, Bool.or_eq_true, decide_eq_true_eq, and_true]
    constructor
    · intro ⟨others, length⟩
      refine ⟨coinbase, rest, ⟨rfl, rfl⟩, holds, ?_, ?_⟩
      · simpa using others
      · rw [inputs, List.forall_mem_singleton]
        omega
    · intro ⟨_, _, ⟨same, sameRest⟩, _, others, length⟩
      subst same sameRest
      rw [inputs, List.forall_mem_singleton] at length
      exact ⟨by simpa using others, by omega⟩

theorem Block.checkStructure_eq_ok {block : Block} (passed : block.checkStructure = .ok ()) :
    ∃ coinbase rest, block.transactions = coinbase :: rest ∧ coinbase.isCoinbase = true ∧
      ∀ tx ∈ rest, tx.isCoinbase = false := by
  obtain ⟨coinbase, rest, listed, holds, others, _⟩ := checkStructure_eq_ok_iff.mp passed
  exact ⟨coinbase, rest, listed, holds, others⟩

theorem Params.validate_eq_ok_iff {params : Params} {view : CoinView} {maxWeight : Nat} {block : Block}
    {parent : HeaderChain} :
    params.validate view maxWeight block parent = .ok () ↔
      block.header.previous = parent.hash ∧ block.weight ≤ maxWeight ∧
        ∃ fees after, params.execute block (parent.height + 1) view = .ok fees after := by
  simp only [validate, guard_eq_ok, ne_eq, not_not, gt_iff_lt, Nat.not_lt]
  refine and_congr_right fun _ => and_congr_right fun _ => ?_
  cases params.execute block (parent.height + 1) view with
  | ok fees after => simp [pure_eq_ok]
  | error broken after => simp [throw_eq_ok]

end Mintage
