import Mintage.Proofs.CoinOrigins

/-! Runs of blocks on one coin view. Every entry has the height and the kind of the newest transaction of its name,
however often others spent from it, so whatever is spent is as old as the rule demands, counted from there. -/

namespace Mintage
open Sequencing

structure Applied where
  tx : Transaction
  height : Nat

namespace Applied

/-- What a run of blocks applies, oldest first. -/
def ofBlocks (blocks : List (Block × Nat)) : List Applied :=
  blocks.flatMap fun (block, height) => block.transactions.map fun tx => ⟨tx, height⟩

/-- The newest of that name. -/
def latest? (txid : Hash256) (history : List Applied) : Option Applied :=
  history.reverse.find? fun entry => entry.tx.txid == txid

theorem latest?_concat (txid : Hash256) (history : List Applied) (last : Applied) :
    latest? txid (history ++ [last]) = if last.tx.txid = txid then some last else latest? txid history := by
  rw [latest?, List.reverse_append, List.reverse_singleton, List.singleton_append]
  by_cases same : last.tx.txid = txid
  · rw [if_pos same, List.find?_cons_of_pos]
    exact beq_iff_eq.mpr same
  · rw [if_neg same, List.find?_cons_of_neg, latest?]
    exact mt beq_iff_eq.mp same

end Applied

/-- What the maturity rule asks about an entry is as the transaction had it. -/
structure Coins.ComesFrom (coins : Coins) (creator : Applied) : Prop where
  height_eq : coins.height = creator.height
  coinbase_eq : coins.coinbase = creator.tx.isCoinbase
  coinstake_eq : coins.coinstake = creator.tx.isCoinstake

namespace CoinView

def Follows (view : CoinView) (history : List Applied) : Prop :=
  ∀ txid coins, view.get? txid = some coins → ∃ creator, Applied.latest? txid history = some creator ∧
    coins.ComesFrom creator

variable {view : CoinView} {history : List Applied}

theorem follows_nil : ({} : CoinView).Follows [] := by
  intro txid coins held
  simp [get?] at held

theorem Follows.spend (follows : view.Follows history) (point : OutPoint) : (view.spend point).Follows history := by
  intro txid coins held
  rw [get?_spend] at held
  split at held
  · obtain ⟨left, -⟩ := Option.filter_eq_some_iff.mp held
    obtain ⟨before, found, rfl⟩ := Option.map_eq_some_iff.mp left
    obtain ⟨creator, newest, same⟩ := follows txid before found
    exact ⟨creator, newest, same.height_eq, same.coinbase_eq, same.coinstake_eq⟩
  · exact follows txid coins held

theorem Follows.spendAll (follows : view.Follows history) (points : List OutPoint) :
    (view.spendAll points).Follows history := by
  induction points generalizing view with
  | nil => exact follows
  | cons point rest ih => exact ih (follows.spend point)

/-- The new entry replaces whatever was there under its name, as it does among the newest. -/
theorem Follows.update (follows : view.Follows history) (tx : Transaction) (height : Nat) :
    (view.update tx height).Follows (history ++ [⟨tx, height⟩]) := by
  intro txid coins held
  rw [update_eq, get?_insert] at held
  rw [Applied.latest?_concat]
  split at held
  next same =>
    obtain rfl := Option.some.inj held
    exact ⟨_, if_pos same, rfl, rfl, rfl⟩
  next other =>
    rw [if_neg other]
    exact follows.spendAll tx.spent txid coins held

end CoinView

namespace Params

variable {params : Params} {height : Nat} {view after : CoinView} {history : List Applied}

/-- Each thing that `entry` spends has been made before, and the newest of its name has come of age if it is of a kind
that has to. -/
def SpendsMature (params : Params) (history : List Applied) (entry : Applied) : Prop :=
  entry.tx.isCoinbase = false → ∀ input ∈ entry.tx.inputs,
    ∃ creator, Applied.latest? input.previous.txid history = some creator ∧
      (creator.tx.isCoinbase = true ∨ creator.tx.isCoinstake = true →
        creator.height + params.maturity ≤ entry.height)

theorem spendsMature_of_fee {tx : Transaction} {due : Amount} (follows : view.Follows history)
    (charged : params.fee view tx height = .ok due) : params.SpendsMature history ⟨tx, height⟩ := by
  intro ordinary input listed
  obtain ⟨_, spendable, _⟩ := fee_eq_ok_iff.mp charged
  have spent : input.previous ∈ tx.spent := by
    rw [tx.spent_of_not_isCoinbase ordinary]
    exact List.mem_map_of_mem listed
  obtain ⟨coins, _, held, mature, _, _⟩ := spendable input.previous spent
  obtain ⟨creator, newest, same⟩ := follows input.previous.txid coins held
  rw [checkMaturity_eq_ok_iff, same.height_eq, same.coinbase_eq, same.coinstake_eq] at mature
  exact ⟨creator, newest, mature⟩

/-- Each of some transactions in a row has the ones before it in its history. -/
def AllMature (params : Params) : (history entries : List Applied) → Prop
  | _, [] => True
  | history, entry :: rest => params.SpendsMature history entry ∧ params.AllMature (history ++ [entry]) rest

theorem allMature_append_iff {first second : List Applied} :
    params.AllMature history (first ++ second) ↔
      params.AllMature history first ∧ params.AllMature (history ++ first) second := by
  induction first generalizing history with
  | nil => simp [AllMature]
  | cons entry rest ih => simp [AllMature, ih, and_assoc]

theorem follows_applyAll {txs : List Transaction} {fees all : Amount} (follows : view.Follows history)
    (run : params.applyAll height txs fees view = .ok all after) :
    after.Follows (history ++ txs.map fun tx => ⟨tx, height⟩) ∧
      params.AllMature history (txs.map fun tx => ⟨tx, height⟩) := by
  -- Each transaction is checked against the history that its predecessors in the block have grown.
  induction txs generalizing fees view history with
  | nil =>
    obtain ⟨-, rfl⟩ := run_pure_eq_ok.mp run
    exact ⟨by simpa using follows, trivial⟩
  | cons tx rest ih =>
    obtain ⟨due, charged, later⟩ := applyAll_cons_eq_ok_iff.mp run
    obtain ⟨last, mature⟩ := ih (follows.update tx height) later
    rw [List.append_assoc] at last
    exact ⟨last, spendsMature_of_fee follows charged, mature⟩

/-- Executes blocks one after another, each at its height, up to the first that breaks a rule. -/
def executeAll (params : Params) : List (Block × Nat) → Execution Unit
  | [] => pure ()
  | (block, height) :: rest => do
    let _ ← params.execute block height
    executeAll params rest

theorem executeAll_cons_eq_ok_iff {block : Block} {rest : List (Block × Nat)} :
    params.executeAll ((block, height) :: rest) view = .ok () after ↔
      ∃ fees between, params.execute block height view = .ok fees between ∧
        params.executeAll rest between = .ok () after := by
  rw [executeAll, run_bind_eq_ok]

theorem follows_executeAll {blocks : List (Block × Nat)} (follows : view.Follows history)
    (run : params.executeAll blocks view = .ok () after) :
    after.Follows (history ++ Applied.ofBlocks blocks) ∧ params.AllMature history (Applied.ofBlocks blocks) := by
  induction blocks generalizing view history with
  | nil =>
    obtain ⟨-, rfl⟩ := run_pure_eq_ok.mp run
    exact ⟨by simpa [Applied.ofBlocks] using follows, trivial⟩
  | cons head rest ih =>
    obtain ⟨block, height⟩ := head
    obtain ⟨fees, between, executed, later⟩ := executeAll_cons_eq_ok_iff.mp run
    obtain ⟨_, applied, _⟩ := execute_eq_ok_iff.mp executed
    obtain ⟨middle, mature⟩ := follows_applyAll follows applied
    obtain ⟨last, matureLater⟩ := ih middle later
    have split : Applied.ofBlocks ((block, height) :: rest) =
        block.transactions.map (fun tx => ⟨tx, height⟩) ++ Applied.ofBlocks rest := rfl
    rw [split, ← List.append_assoc]
    exact ⟨last, allMature_append_iff.mpr ⟨mature, matureLater⟩⟩

/-- No order of the heights is assumed, nor that names are unique. -/
theorem spent_outputs_are_mature {blocks : List (Block × Nat)} (run : params.executeAll blocks {} = .ok () after)
    {earlier later : List Applied} {entry : Applied} (placed : Applied.ofBlocks blocks = earlier ++ entry :: later)
    (ordinary : entry.tx.isCoinbase = false) {input : TxInput} (listed : input ∈ entry.tx.inputs) :
    ∃ creator, Applied.latest? input.previous.txid earlier = some creator ∧
      (creator.tx.isCoinbase = true ∨ creator.tx.isCoinstake = true →
        creator.height + params.maturity ≤ entry.height) := by
  obtain ⟨_, mature⟩ := follows_executeAll CoinView.follows_nil run
  rw [placed, allMature_append_iff] at mature
  exact mature.2.1 ordinary input listed

end Params

/-! The output of a coinbase, spent in the first block in which it may be. -/

namespace Aged

def reward (height : UInt8) : Transaction :=
  { inputs := [{ scriptSig := [0x01, height] }], outputs := [⟨5000000000, [0x51]⟩] }

def point : OutPoint :=
  ⟨(reward 1).txid, 0⟩

def payment : Transaction :=
  { inputs := [{ previous := point }], outputs := [⟨5000000000, [0x52]⟩] }

def blocks : List (Block × Nat) :=
  [({ transactions := [reward 1] }, 1), ({ transactions := [reward 11, payment] }, 11)]

def young : CoinView :=
  ({} : CoinView).update (reward 1) 1

def grown : CoinView :=
  young.update (reward 11) 11

private theorem isCoinbase_payment : payment.isCoinbase = false := by
  have real : point.isNull = false := by simp [OutPoint.isNull, OutPoint.null, point]
  exact real

private theorem coin?_point : grown.coin? point = some ⟨1, true, false, ⟨5000000000, [0x51]⟩⟩ := by
  have different : (reward 11).txid ≠ point.txid := by decide +kernel
  have own : (reward 1).txid = point.txid := rfl
  have nothing : (reward 11).spent = [] := Transaction.spent_of_isCoinbase rfl
  rw [grown, CoinView.coin?_update, if_neg different, nothing, if_neg List.not_mem_nil, young, CoinView.coin?_update,
    if_pos own]
  rfl

private theorem fee_payment : Params.regtest.fee grown payment 11 = .ok 0 := by
  have spent : payment.spent = [point] := Transaction.spent_of_not_isCoinbase isCoinbase_payment
  exact Params.fee_of_single_coin spent rfl rfl coin?_point ⟨rfl, rfl⟩ rfl (by decide)

private theorem checkStructure_second : Block.checkStructure { transactions := [reward 11, payment] } = .ok () := by
  have first : Block.coinbase? { transactions := [reward 11, payment] } = some (reward 11) := rfl
  have single : [payment].any Transaction.isCoinbase = false := by simp [isCoinbase_payment]
  rw [Block.checkStructure, first]
  simp only [List.tail_cons, single]
  rfl

private theorem run_blocks : Params.regtest.executeAll blocks {} = .ok () (grown.update payment 11) := by
  have first : Params.regtest.execute { transactions := [reward 1] } 1 {} = .ok 0 young :=
    Params.execute_eq_ok_iff.mpr ⟨rfl, Params.applyAll_cons_eq_ok_iff.mpr ⟨0, rfl, rfl⟩, rfl⟩
  have paid : Params.regtest.applyAll 11 [payment] 0 grown = .ok 0 (grown.update payment 11) :=
    Params.applyAll_cons_eq_ok_iff.mpr ⟨0, fee_payment, rfl⟩
  have second : Params.regtest.execute { transactions := [reward 11, payment] } 11 young =
      .ok 0 (grown.update payment 11) :=
    Params.execute_eq_ok_iff.mpr ⟨checkStructure_second, Params.applyAll_cons_eq_ok_iff.mpr ⟨0, rfl, paid⟩, rfl⟩
  exact Params.executeAll_cons_eq_ok_iff.mpr ⟨0, _, first, Params.executeAll_cons_eq_ok_iff.mpr ⟨0, _, second, rfl⟩⟩

theorem payment_is_mature :
    Params.regtest.executeAll blocks {} = .ok () (grown.update payment 11) ∧
      Applied.ofBlocks blocks = [⟨reward 1, 1⟩, ⟨reward 11, 11⟩] ++ ⟨payment, 11⟩ :: [] ∧
      payment.isCoinbase = false ∧ { previous := point } ∈ payment.inputs ∧
      ∃ creator, Applied.latest? point.txid [⟨reward 1, 1⟩, ⟨reward 11, 11⟩] = some creator ∧
        (creator.tx.isCoinbase = true ∨ creator.tx.isCoinstake = true → creator.height + 10 ≤ 11) := by
  have placed : Applied.ofBlocks blocks = [⟨reward 1, 1⟩, ⟨reward 11, 11⟩] ++ ⟨payment, 11⟩ :: [] := by
    simp [Applied.ofBlocks, blocks]
  have listed : { previous := point } ∈ payment.inputs := List.mem_singleton_self _
  have mature := Params.spent_outputs_are_mature run_blocks placed isCoinbase_payment listed
  exact ⟨run_blocks, placed, isCoinbase_payment, listed, mature⟩

end Aged
end Mintage
