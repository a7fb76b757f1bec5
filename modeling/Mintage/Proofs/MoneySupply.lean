import Mintage.Proofs.ExecutionRules

/-! Where money comes from. The value counted on the input side of a transaction and the
value that leaves the view differ by what it lists more than once; over a whole block
nothing else can push the supply past the subsidy. -/

namespace Mintage
open Sequencing

namespace CoinView

/-- No stored output is negative or above the range of money. -/
def InRange (view : CoinView) : Prop :=
  ∀ txid coins, view.get? txid = some coins → ∀ output, some output ∈ coins.outputs → output.value.inRange = true

/-- The value that the inputs of a transaction count again after the first time. -/
def recounted (view : CoinView) (tx : Transaction) : Int :=
  view.listed tx - ∑ point ∈ tx.spent.toFinset, view.valueAt point

/-- The value of an entry that a transaction replaces because it has the same identifier. -/
def overwritten (view : CoinView) (tx : Transaction) : Int :=
  (view.spendAll tx.spent).entryValue tx.txid

/-- A measure of single transactions added up over a run, each taken in the view that the
ones before it left. -/
def along (measure : CoinView → Transaction → Int) (height : Nat) : CoinView → List Transaction → Int
  | _, [] => 0
  | view, tx :: rest => measure view tx + along measure height (view.update tx height) rest

theorem recounted_eq_zero {view : CoinView} {tx : Transaction} (once : tx.spent.Nodup) : view.recounted tx = 0 := by
  rw [recounted, listed, List.sum_toFinset view.valueAt once, Int.sub_self]

theorem along_recounted_eq_zero {view : CoinView} {height : Nat} {txs : List Transaction}
    (once : ∀ tx ∈ txs, tx.spent.Nodup) : view.along recounted height txs = 0 := by
  induction txs generalizing view with
  | nil => rfl
  | cons tx rest ih =>
    rw [along, recounted_eq_zero (once tx List.mem_cons_self),
      ih fun other member => once other (List.mem_cons_of_mem _ member), Int.add_zero]

/-- The whole effect of a transaction on the supply. -/
theorem supply_update (view : CoinView) (tx : Transaction) (height : Nat) :
    (view.update tx height).supply =
      view.supply - view.listed tx + tx.paid + view.recounted tx - view.overwritten tx := by
  rw [update_eq, supply_insert, supply_spendAll, recounted, overwritten]
  omega

theorem InRange.spend {view : CoinView} (stored : view.InRange) (point : OutPoint) : (view.spend point).InRange := by
  intro txid coins held output member
  rw [get?_spend] at held
  split at held
  · obtain ⟨left, -⟩ := Option.filter_eq_some_iff.mp held
    obtain ⟨before, found, rfl⟩ := Option.map_eq_some_iff.mp left
    rcases List.mem_or_eq_of_mem_set member with old | spent
    · exact stored txid before found output old
    · cases spent
  · exact stored txid coins held output member

theorem InRange.spendAll {view : CoinView} (stored : view.InRange) (points : List OutPoint) :
    (view.spendAll points).InRange := by
  induction points generalizing view with
  | nil => exact stored
  | cons point rest ih => exact ih (stored.spend point)

theorem InRange.update {view : CoinView} (stored : view.InRange) {tx : Transaction} (sound : tx.checkOutputs = .ok ())
    (height : Nat) : (view.update tx height).InRange := by
  intro txid coins held output member
  rw [update_eq, get?_insert] at held
  split at held
  · obtain rfl := Option.some.inj held
    have listed : output ∈ tx.outputs := by simpa [Coins.ofTransaction] using member
    exact (tx.checkOutputs_eq_ok_iff.mp sound).1 output listed
  · exact stored.spendAll tx.spent txid coins held output member

theorem InRange.overwritten_nonneg {view : CoinView} (stored : view.InRange) (tx : Transaction) :
    0 ≤ view.overwritten tx := by
  rw [overwritten, entryValue]
  cases held : (view.spendAll tx.spent).get? tx.txid with
  | none => exact Int.le_refl 0
  | some coins =>
    apply List.sum_nonneg
    intro number member
    obtain ⟨output, inside, rfl⟩ := List.mem_map.mp member
    cases output with
    | none => exact Int.le_refl 0
    | some output => exact (Amount.inRange_iff.mp (stored.spendAll tx.spent _ coins held output inside)).1

end CoinView

/-- What a run of transactions creates: the outputs of its coinbases. -/
def Transaction.minted (txs : List Transaction) : Int :=
  ((txs.filter Transaction.isCoinbase).map Transaction.paid).sum

namespace Params

/-- A transaction other than a coinstake mints its outputs or leaves its fee. -/
private theorem supply_step (view : CoinView) (height : Nat) {tx : Transaction} (ordinary : tx.isCoinstake = false) :
    (view.update tx height).supply = view.supply + Transaction.minted [tx] - view.feePaid tx +
      view.recounted tx - view.overwritten tx := by
  rw [CoinView.supply_update, CoinView.feePaid, ordinary, Bool.or_false]
  cases kind : tx.isCoinbase with
  | true =>
    have nothing : view.listed tx = 0 := by
      rw [CoinView.listed, tx.spent_of_isCoinbase kind]
      rfl
    simp [Transaction.minted, kind, nothing]
  | false =>
    simp only [Transaction.minted, kind, Bool.false_eq_true, if_false, List.filter_cons_of_neg, not_false_eq_true,
      List.filter_nil, List.map_nil, List.sum_nil]
    omega

private theorem minted_cons (tx : Transaction) (rest : List Transaction) :
    Transaction.minted (tx :: rest) = Transaction.minted [tx] + Transaction.minted rest := by
  cases kind : tx.isCoinbase <;> simp [Transaction.minted, kind]

theorem supply_applyAll {params : Params} {height : Nat} {txs : List Transaction} {fees all : Amount}
    {view after : CoinView} (ordinary : ∀ tx ∈ txs, tx.isCoinstake = false)
    (run : params.applyAll height txs fees view = .ok all after) :
    after.supply = view.supply + Transaction.minted txs - view.along CoinView.feePaid height txs +
      view.along CoinView.recounted height txs - view.along CoinView.overwritten height txs := by
  induction txs generalizing fees view with
  | nil =>
    obtain ⟨-, rfl⟩ := run_pure_eq_ok.mp run
    simp [Transaction.minted, CoinView.along]
  | cons tx rest ih =>
    obtain ⟨fee, -, later⟩ := applyAll_cons_eq_ok_iff.mp run
    have step := supply_step view height (ordinary tx List.mem_cons_self)
    rw [ih (fun other member => ordinary other (List.mem_cons_of_mem _ member)) later, step, minted_cons tx rest]
    simp only [CoinView.along]
    omega

theorem overwritten_applyAll {params : Params} {height : Nat} {txs : List Transaction} {fees all : Amount}
    {view after : CoinView} (stored : view.InRange) (run : params.applyAll height txs fees view = .ok all after) :
    0 ≤ view.along CoinView.overwritten height txs := by
  induction txs generalizing fees view with
  | nil => exact Int.le_refl 0
  | cons tx rest ih =>
    obtain ⟨fee, due, later⟩ := applyAll_cons_eq_ok_iff.mp run
    have first := stored.overwritten_nonneg tx
    have others := ih (stored.update (fee_eq_ok_iff.mp due).1 height) later
    rw [CoinView.along]
    omega

/-- The fees of a run are exact up to the end of the word. -/
theorem fees_applyAll {params : Params} {height : Nat} {txs : List Transaction} {fees all : Amount}
    {view after : CoinView} (start : 0 ≤ fees.toInt) (run : params.applyAll height txs fees view = .ok all after) :
    all.toInt = min (2 ^ 63 - 1) (fees.toInt + view.along CoinView.feePaid height txs) ∧
      0 ≤ view.along CoinView.feePaid height txs := by
  induction txs generalizing fees view with
  | nil =>
    obtain ⟨rfl, -⟩ := run_pure_eq_ok.mp run
    have bound := fees.toInt_lt
    simp only [CoinView.along]
    omega
  | cons tx rest ih =>
    obtain ⟨fee, due, later⟩ := applyAll_cons_eq_ok_iff.mp run
    obtain ⟨-, -, -, positive, value⟩ := fee_eq_ok_iff.mp due
    have sum := Amount.toInt_add fees fee
    obtain ⟨total, others⟩ := ih (by omega) later
    simp only [CoinView.along]
    omega

/-- What the coinbase of a block may claim and does not. -/
def unclaimed (params : Params) (view : CoinView) (block : Block) (height : Nat) : Int :=
  view.along CoinView.feePaid height block.transactions + (params.subsidy height).toInt -
    Transaction.minted block.transactions

theorem minted_of_checkStructure {block : Block} (sound : block.checkStructure = .ok ()) :
    ∃ coinbase, block.coinbase? = some coinbase ∧ Transaction.minted block.transactions = coinbase.paid := by
  obtain ⟨coinbase, rest, listed, first, others⟩ := Block.checkStructure_eq_ok sound
  have none : rest.filter Transaction.isCoinbase = [] := by
    simpa [List.filter_eq_nil_iff] using others
  refine ⟨coinbase, Block.coinbase?_eq_some_iff.mpr ⟨rest, listed, first⟩, ?_⟩
  simp [Transaction.minted, listed, first, none]

/-- The reward check leaves nothing to claim beyond the subsidy and the fees. -/
theorem unclaimed_nonneg {params : Params} {view after : CoinView} {block : Block} {height : Nat} {fees : Amount}
    (accepted : params.execute block height view = .ok fees after) : 0 ≤ params.unclaimed view block height := by
  obtain ⟨sound, run, rewarded⟩ := execute_eq_ok_iff.mp accepted
  obtain ⟨coinbase, found, minted⟩ := minted_of_checkStructure sound
  obtain ⟨_, same, passed, bound⟩ := checkReward_eq_ok_iff.mp rewarded
  cases found.symm.trans same
  obtain ⟨total, positive⟩ := fees_applyAll (by decide) run
  have allowed := Amount.toInt_add fees (params.subsidy height)
  rw [Int64.le_iff_toInt_le, coinbase.toInt_totalOutput passed] at bound
  rw [Int64.toInt_zero, Int.zero_add] at total
  have paid := coinbase.paid_nonneg_of_checkOutputs passed
  rw [unclaimed, minted]
  omega

/-- A block without a coinstake raises the supply by more than the subsidy exactly if it
counts again more than it leaves unclaimed and overwrites; a block in which no
transaction lists an outpoint twice does not. -/
theorem supply_execute_le_iff {params : Params} {view after : CoinView} {block : Block} {height : Nat} {fees : Amount}
    (stored : view.InRange) (ordinary : ∀ tx ∈ block.transactions, tx.isCoinstake = false)
    (accepted : params.execute block height view = .ok fees after) :
    (after.supply ≤ view.supply + (params.subsidy height).toInt ↔
      view.along CoinView.recounted height block.transactions ≤
        params.unclaimed view block height + view.along CoinView.overwritten height block.transactions) ∧
    ((∀ tx ∈ block.transactions, tx.spent.Nodup) →
      after.supply ≤ view.supply + (params.subsidy height).toInt) := by
  obtain ⟨-, run, -⟩ := execute_eq_ok_iff.mp accepted
  have change := supply_applyAll ordinary run
  have lost := overwritten_applyAll stored run
  have spare := unclaimed_nonneg accepted
  have exact_ : after.supply ≤ view.supply + (params.subsidy height).toInt ↔
      view.along CoinView.recounted height block.transactions ≤
        params.unclaimed view block height + view.along CoinView.overwritten height block.transactions := by
    rw [change, unclaimed]
    omega
  refine ⟨exact_, fun once => exact_.mpr ?_⟩
  rw [CoinView.along_recounted_eq_zero once]
  omega

end Params

/-! A block whose second transaction pays out what its first one mints, listing that output
once or several times. -/

namespace Payment

def young : Params :=
  { Params.regtest with maturity := 0 }

def reward : Transaction :=
  { inputs := [{ scriptSig := [0x51, 0x51] }], outputs := [⟨5000000000, [0x51]⟩] }

def point : OutPoint :=
  ⟨reward.txid, 0⟩

def payment (copies : Nat) (value : Amount) : Transaction :=
  { inputs := List.replicate copies { previous := point }, outputs := [⟨value, [0x52]⟩] }

def block (copies : Nat) (value : Amount) : Block :=
  { transactions := [reward, payment copies value] }

def rewarded : CoinView :=
  ({} : CoinView).update reward 1

private theorem get?_empty (txid : Hash256) : ({} : CoinView).get? txid = none := by
  simp [CoinView.get?]

private theorem get?_rewarded (txid : Hash256) :
    rewarded.get? txid = if reward.txid = txid then some (.ofTransaction reward 1) else none := by
  have nothing : reward.spent = [] := reward.spent_of_isCoinbase rfl
  rw [rewarded, CoinView.update_eq, nothing, CoinView.spendAll, List.foldl_nil, CoinView.get?_insert, get?_empty]

private theorem spendable : young.Spendable rewarded 1 point :=
  ⟨_, ⟨5000000000, [0x51]⟩, (get?_rewarded _).trans (if_pos rfl), rfl, rfl, by decide⟩

private theorem valueAt_point : rewarded.valueAt point = 5000000000 := by
  have held : rewarded.get? point.txid = some (.ofTransaction reward 1) := (get?_rewarded _).trans (if_pos rfl)
  rw [CoinView.valueAt, CoinView.output?, held]
  rfl

private theorem isCoinbase_payment (copies : Nat) (value : Amount) : (payment copies value).isCoinbase = false := by
  match copies with
  | 0 => rfl
  | 1 =>
    have real : point.isNull = false := by simp [OutPoint.isNull, OutPoint.null, point]
    exact real
  | _ + 2 => rfl

private theorem isCoinstake_payment (copies : Nat) (value : Amount) : (payment copies value).isCoinstake = false := by
  cases copies <;> rfl

private theorem spent_payment (copies : Nat) (value : Amount) :
    (payment copies value).spent = List.replicate copies point := by
  rw [Transaction.spent_of_not_isCoinbase (isCoinbase_payment copies value), payment, List.map_replicate]

private theorem fee_payment (copies : Nat) (value due : Amount) (sound : (payment copies value).checkOutputs = .ok ())
    (few : copies ≤ 1000) (positive : 0 ≤ due.toInt) (balance : value.toInt + due.toInt = copies * 5000000000) :
    young.fee rewarded (payment copies value) 1 = .ok due := by
  have listed : rewarded.listed (payment copies value) = copies * 5000000000 := by
    rw [CoinView.listed, spent_payment, List.map_replicate, valueAt_point, List.sum_replicate, nsmul_eq_mul]
  have paid : (payment copies value).paid = value.toInt := by simp [Transaction.paid, payment]
  have left : rewarded.feePaid (payment copies value) = due.toInt := by
    rw [CoinView.feePaid, isCoinbase_payment, isCoinstake_payment, listed, paid]
    simp only [Bool.or_self, Bool.false_eq_true, if_false]
    omega
  have every : ∀ spent ∈ (payment copies value).spent, young.Spendable rewarded 1 spent := by
    intro spent member
    rw [spent_payment] at member
    rw [List.eq_of_mem_replicate member]
    exact spendable
  refine Params.fee_eq_ok_iff.mpr ⟨sound, every, ?_, ?_, left.symm⟩
  · rw [listed, Amount.toInt_maxMoney]
    omega
  · rw [left]
    exact positive

private theorem checkStructure_block (copies : Nat) (value : Amount) :
    (block copies value).checkStructure = .ok () := by
  have first : (block copies value).coinbase? = some reward := rfl
  have single : (block copies value).transactions.tail.any Transaction.isCoinbase = false := by
    simp [block, isCoinbase_payment]
  rw [Block.checkStructure, first]
  simp only [single]
  rfl

private theorem run_payment (copies : Nat) (value due : Amount)
    (fee : young.fee rewarded (payment copies value) 1 = .ok due) (sum : ((0 : Amount).add 0).add due = due)
    (claimed : young.checkReward due 1 (block copies value) = .ok ()) :
    young.execute (block copies value) 1 {} = .ok due (rewarded.update (payment copies value) 1) := by
  refine Params.execute_eq_ok_iff.mpr ⟨checkStructure_block copies value, ?_, claimed⟩
  refine Params.applyAll_cons_eq_ok_iff.mpr ⟨0, rfl, Params.applyAll_cons_eq_ok_iff.mpr ⟨due, fee, ?_⟩⟩
  exact run_pure_eq_ok.mpr ⟨sum, rfl⟩

/-- Listed twice, the output counts twice. -/
theorem double_spend_inflates :
    ∃ after, young.execute (block 2 10000000000) 1 {} = .ok 0 after ∧
      ({} : CoinView).supply + (young.subsidy 1).toInt < after.supply := by
  have fee := fee_payment 2 10000000000 0 rfl (by decide) (by decide) (by decide)
  have gone : ∀ txid, (rewarded.spendAll [point, point]).get? txid = none := by
    intro txid
    have step : rewarded.spendAll [point, point] = (rewarded.spend point).spend point := rfl
    rw [step, CoinView.get?_spend, CoinView.get?_spend, get?_rewarded]
    by_cases same : point.txid = txid
    · have held : reward.txid = txid := same
      rw [if_pos same, if_pos same, if_pos held]
      rfl
    · rw [if_neg same, if_neg same]
      exact if_neg same
  have empty : (rewarded.spendAll [point, point]).supply = 0 := by
    rw [← CoinView.supply_empty]
    exact CoinView.supply_congr fun txid => (gone txid).trans (get?_empty txid).symm
  have two : List.replicate 2 point = [point, point] := rfl
  refine ⟨_, run_payment 2 10000000000 0 fee rfl rfl, ?_⟩
  rw [CoinView.update_eq, spent_payment, CoinView.supply_insert, two, empty, CoinView.entryValue, gone,
    CoinView.supply_empty]
  decide

/-- Listed once, the output covers what is paid out of it. -/
theorem payment_keeps_supply :
    ({} : CoinView).InRange ∧ (∀ tx ∈ (block 1 3000000000).transactions, tx.isCoinstake = false) ∧
      ∃ after, young.execute (block 1 3000000000) 1 {} = .ok 2000000000 after ∧
        (∀ tx ∈ (block 1 3000000000).transactions, tx.spent.Nodup) ∧
        after.supply ≤ ({} : CoinView).supply + (young.subsidy 1).toInt := by
  have stored : ({} : CoinView).InRange := by
    intro txid coins held
    rw [get?_empty] at held
    cases held
  have ordinary : ∀ tx ∈ (block 1 3000000000).transactions, tx.isCoinstake = false := by
    intro tx member
    rcases List.mem_cons.mp member with rfl | other
    · rfl
    · rw [List.mem_singleton.mp other]
      rfl
  have once : ∀ tx ∈ (block 1 3000000000).transactions, tx.spent.Nodup := by
    intro tx member
    rcases List.mem_cons.mp member with rfl | other
    · rw [reward.spent_of_isCoinbase rfl]
      exact List.nodup_nil
    · rw [List.mem_singleton.mp other, spent_payment]
      exact List.nodup_singleton point
  have fee := fee_payment 1 3000000000 2000000000 rfl (by decide) (by decide) (by decide)
  have run := run_payment 1 3000000000 2000000000 fee rfl rfl
  exact ⟨stored, ordinary, _, run, once, (Params.supply_execute_le_iff stored ordinary run).2 once⟩

end Payment
end Mintage
