import Mathlib.Data.List.Induction
import Mintage.Proofs.ExecutionRules

/-! Entries without an unspent output. Spending removes an entry with its last output, but an entry that never had one
is added like any other and nothing looks at it again, so what a view holds of these depends on the last thing that
happened to each name. -/

namespace Mintage
open Sequencing

namespace CoinView

/-- There is an entry, and nothing of it is left to spend. -/
def Dead (view : CoinView) (txid : Hash256) : Prop :=
  ∃ coins, view.get? txid = some coins ∧ coins.isSpent = true

section Entries

variable (view : CoinView) {txid : Hash256}

/-- An entry goes with its last output. -/
theorem dead_spend_iff (point : OutPoint) : (view.spend point).Dead txid ↔ point.txid ≠ txid ∧ view.Dead txid := by
  by_cases own : point.txid = txid
  · refine iff_of_false ?_ fun both => both.1 own
    rintro ⟨coins, held, spent⟩
    rw [get?_spend, if_pos own] at held
    have live := (Option.filter_eq_some_iff.mp held).2
    rw [spent] at live
    cases live
  · simp only [Dead, get?_spend, own, if_false, ne_eq, not_false_eq_true, true_and]

/-- A new entry is dead only if it never had an output. -/
theorem dead_insert_iff (tx : Transaction) (height : Nat) :
    (view.insert tx height).Dead txid ↔ if tx.txid = txid then tx.outputs = [] else view.Dead txid := by
  have barren : (Coins.ofTransaction tx height).isSpent = true ↔ tx.outputs = [] := by
    rw [Coins.isSpent, Coins.ofTransaction]
    cases tx.outputs <;> simp
  by_cases own : tx.txid = txid
  · simp only [Dead, get?_insert, if_pos own, Option.some.injEq, exists_eq_left', barren]
  · simp only [Dead, get?_insert, if_neg own]

theorem dead_spendAll {points : List OutPoint} (apart : ∀ point ∈ points, point.txid ≠ txid) (dead : view.Dead txid) :
    (view.spendAll points).Dead txid := by
  induction points generalizing view with
  | nil => exact dead
  | cons point rest ih =>
    obtain ⟨first, others⟩ := List.forall_mem_cons.mp apart
    exact ih _ others ((view.dead_spend_iff point).mpr ⟨first, dead⟩)

end Entries

/-- The smallest things that happen to a view. -/
inductive Touch where
  | spend (point : OutPoint)
  | create (tx : Transaction) (height : Nat)

namespace Touch

/-- The name whose entry is touched. -/
def txid : Touch → Hash256
  | spend point => point.txid
  | create tx _ => tx.txid

def apply (view : CoinView) : Touch → CoinView
  | spend point => view.spend point
  | create tx height => view.insert tx height

def applyAll (view : CoinView) (touches : List Touch) : CoinView :=
  touches.foldl apply view

/-- Adds an entry with nothing to spend. -/
def Barren : Touch → Prop
  | spend _ => False
  | create tx _ => tx.outputs = []

/-- The last touch of a name. -/
def newest? (txid : Hash256) (touches : List Touch) : Option Touch :=
  touches.reverse.find? fun touch => touch.txid == txid

theorem newest?_concat (txid : Hash256) (touches : List Touch) (last : Touch) :
    newest? txid (touches ++ [last]) = if last.txid = txid then some last else newest? txid touches := by
  rw [newest?, List.reverse_append, List.reverse_singleton, List.singleton_append]
  by_cases same : last.txid = txid
  · rw [if_pos same, List.find?_cons_of_pos]
    exact beq_iff_eq.mpr same
  · rw [if_neg same, List.find?_cons_of_neg, newest?]
    exact mt beq_iff_eq.mp same

theorem dead_apply_iff (view : CoinView) (touch : Touch) {txid : Hash256} :
    (apply view touch).Dead txid ↔ if touch.txid = txid then touch.Barren else view.Dead txid := by
  cases touch with
  | spend point =>
    refine (view.dead_spend_iff point).trans ?_
    by_cases own : point.txid = txid <;> simp [Touch.txid, own, Barren]
  | create tx height => exact view.dead_insert_iff tx height

theorem dead_applyAll_iff (touches : List Touch) {txid : Hash256} :
    (applyAll {} touches).Dead txid ↔ ∃ last, newest? txid touches = some last ∧ last.Barren := by
  induction touches using List.reverseRecOn with
  | nil => simp [applyAll, Dead, get?, newest?]
  | append_singleton earlier last ih =>
    have step : applyAll {} (earlier ++ [last]) = apply (applyAll {} earlier) last := List.foldl_concat ..
    rw [step, dead_apply_iff, newest?_concat, ih]
    split
    · simp only [Option.some.injEq, exists_eq_left']
    · rfl

/-- What a transaction does to a view, in this order. -/
def ofTransaction (tx : Transaction) (height : Nat) : List Touch :=
  tx.spent.map spend ++ [create tx height]

theorem applyAll_append (view : CoinView) (first second : List Touch) :
    applyAll view (first ++ second) = applyAll (applyAll view first) second :=
  List.foldl_append

theorem applyAll_ofTransaction (view : CoinView) (tx : Transaction) (height : Nat) :
    applyAll view (ofTransaction tx height) = view.update tx height := by
  have spends : applyAll view (tx.spent.map spend) = view.spendAll tx.spent := List.foldl_map
  rw [update_eq, ofTransaction, applyAll_append, spends]
  rfl

end Touch

/-- What a view can be asked to do: to take in a transaction with or without spending its inputs, or to run a block. -/
inductive Call where
  | insert (tx : Transaction) (height : Nat)
  | update (tx : Transaction) (height : Nat)
  | execute (params : Params) (block : Block) (height : Nat)

namespace Call

def run : Call → Execution Unit
  | insert tx height => modify fun view => view.insert tx height
  | update tx height => modify fun view => view.update tx height
  | execute params block height => do
    let _ ← params.execute block height

def runAll : List Call → Execution Unit
  | [] => pure ()
  | call :: rest => do
    call.run
    runAll rest

/-- The transactions that are taken in. -/
def created : Call → List Transaction
  | insert tx _ => [tx]
  | update tx _ => [tx]
  | execute _ block _ => block.transactions

def touches : Call → List Touch
  | insert tx height => [.create tx height]
  | update tx height => Touch.ofTransaction tx height
  | execute _ block height => block.transactions.flatMap fun tx => Touch.ofTransaction tx height

theorem mem_created_of_mem_touches {call : Call} {tx : Transaction} {height : Nat}
    (listed : Touch.create tx height ∈ call.touches) : tx ∈ call.created := by
  have own {other : Transaction} {place : Nat} (listed : Touch.create tx height ∈ Touch.ofTransaction other place) :
      tx = other := by
    rw [Touch.ofTransaction, List.mem_append, List.mem_singleton] at listed
    obtain spends | same := listed
    · obtain ⟨_, _, different⟩ := List.mem_map.mp spends
      cases different
    · cases same
      rfl
  cases call with
  | insert other _ =>
    cases List.mem_singleton.mp listed
    exact List.mem_singleton_self tx
  | update other _ =>
    cases own listed
    exact List.mem_singleton_self tx
  | execute _ block _ =>
    obtain ⟨other, inside, placed⟩ := List.mem_flatMap.mp listed
    cases own placed
    exact inside

end Call
end CoinView

namespace Params
open CoinView

variable {params : Params} {height : Nat} {view after : CoinView} {fees all : Amount}

theorem applyAll_touches {txs : List Transaction} (run : params.applyAll height txs fees view = .ok all after) :
    Touch.applyAll view (txs.flatMap fun tx => Touch.ofTransaction tx height) = after := by
  induction txs generalizing fees view with
  | nil => exact (run_pure_eq_ok.mp run).2
  | cons tx rest ih =>
    obtain ⟨_, _, later⟩ := applyAll_cons_eq_ok_iff.mp run
    rw [List.flatMap_cons, Touch.applyAll_append, Touch.applyAll_ofTransaction]
    exact ih later

/-- A transaction that passes spends nothing of a dead entry, since there is nothing to spend. -/
theorem dead_update {tx : Transaction} {due : Amount} {txid : Hash256} (charged : params.fee view tx height = .ok due)
    (dead : view.Dead txid) (other : tx.txid ≠ txid) : (view.update tx height).Dead txid := by
  obtain ⟨_, spendable, _⟩ := fee_eq_ok_iff.mp charged
  have apart : ∀ point ∈ tx.spent, point.txid ≠ txid := by
    rintro point listed rfl
    obtain ⟨coins, output, held, _, unspent, _⟩ := spendable point listed
    obtain ⟨_, found, spent⟩ := dead
    obtain rfl := Option.some.inj (held.symm.trans found)
    rw [Coins.output?_of_isSpent spent] at unspent
    cases unspent
  rw [update_eq, dead_insert_iff, if_neg other]
  exact view.dead_spendAll apart dead

theorem dead_applyAll {txs : List Transaction} {txid : Hash256}
    (run : params.applyAll height txs fees view = .ok all after) (dead : view.Dead txid)
    (others : ∀ tx ∈ txs, tx.txid ≠ txid) : after.Dead txid := by
  induction txs generalizing fees view with
  | nil => exact (run_pure_eq_ok.mp run).2 ▸ dead
  | cons tx rest ih =>
    obtain ⟨_, charged, later⟩ := applyAll_cons_eq_ok_iff.mp run
    obtain ⟨first, others⟩ := List.forall_mem_cons.mp others
    exact ih later (dead_update charged dead first) others

end Params

namespace CoinView.Call

variable {view after : CoinView}

theorem run_touches {call : Call} (done : call.run view = .ok () after) :
    Touch.applyAll view call.touches = after := by
  cases call with
  | insert tx height => exact run_modify_eq_ok.mp done
  | update tx height =>
    rw [touches, Touch.applyAll_ofTransaction]
    exact run_modify_eq_ok.mp done
  | execute params block height =>
    obtain ⟨_, _, executed, finished⟩ := run_bind_eq_ok.mp done
    obtain ⟨_, rfl⟩ := run_pure_eq_ok.mp finished
    exact Params.applyAll_touches (Params.execute_eq_ok_iff.mp executed).2.1

theorem runAll_touches {calls : List Call} (done : runAll calls view = .ok () after) :
    Touch.applyAll view (calls.flatMap touches) = after := by
  induction calls generalizing view with
  | nil => exact (run_pure_eq_ok.mp done).2
  | cons call rest ih =>
    obtain ⟨_, between, first, later⟩ := run_bind_eq_ok.mp done
    rw [List.flatMap_cons, Touch.applyAll_append, run_touches first]
    exact ih later

/-- A view holds a dead entry exactly where the last touch of a name added a transaction without outputs. There are none
as long as every transaction has an output. One that is there stays through any block that passes, unless the
block has a transaction of the same name. -/
theorem dead_entries_never_had_outputs {calls : List Call} (done : runAll calls {} = .ok () view) :
    (∀ txid, view.Dead txid ↔ ∃ tx height, Touch.newest? txid (calls.flatMap touches) = some (.create tx height) ∧
      tx.outputs = []) ∧
    ((∀ call ∈ calls, ∀ tx ∈ call.created, tx.outputs ≠ []) → ∀ txid coins, view.get? txid = some coins →
      coins.isSpent = false) ∧
    ∀ params block height fees after, Params.execute params block height view = .ok fees after →
      ∀ txid, view.Dead txid → (∀ tx ∈ block.transactions, tx.txid ≠ txid) → after.Dead txid := by
  have newest : ∀ txid, view.Dead txid ↔ ∃ tx height,
      Touch.newest? txid (calls.flatMap touches) = some (.create tx height) ∧ tx.outputs = [] := by
    intro txid
    rw [← runAll_touches done, Touch.dead_applyAll_iff]
    constructor
    · rintro ⟨last, found, barren⟩
      cases last with
      | spend point => cases barren
      | create tx height => exact ⟨tx, height, found, barren⟩
    · rintro ⟨tx, height, found, empty⟩
      exact ⟨_, found, empty⟩
  refine ⟨newest, ?live, ?stays⟩
  case live =>
    intro fruitful txid coins held
    rw [← Bool.not_eq_true]
    intro spent
    obtain ⟨tx, height, found, empty⟩ := (newest txid).mp ⟨coins, held, spent⟩
    obtain ⟨call, listed, placed⟩ := List.mem_flatMap.mp (List.mem_reverse.mp (List.mem_of_find?_eq_some found))
    exact fruitful call listed tx (mem_created_of_mem_touches placed) empty
  case stays =>
    intro params block height fees after executed txid dead others
    exact Params.dead_applyAll (Params.execute_eq_ok_iff.mp executed).2.1 dead others

end CoinView.Call

/-! A coinbase that pays nobody, and a block after it. -/
namespace Unclaimed
open CoinView

def nobody : Transaction :=
  { inputs := [{ scriptSig := [0x01, 0x11] }] }

def somebody : Transaction :=
  { inputs := [{ scriptSig := [0x01, 0x12] }], outputs := [⟨50, [0x51]⟩] }

def calls : List Call :=
  [.execute .regtest { transactions := [nobody] } 17]

def view : CoinView :=
  ({} : CoinView).update nobody 17

private theorem run_calls : Call.runAll calls {} = .ok () view := by
  have executed : Params.regtest.execute { transactions := [nobody] } 17 {} = .ok 0 view :=
    Params.execute_eq_ok_iff.mpr ⟨rfl, Params.applyAll_cons_eq_ok_iff.mpr ⟨0, rfl, rfl⟩, rfl⟩
  exact run_bind_eq_ok.mpr ⟨(), view, run_bind_eq_ok.mpr ⟨0, view, executed, rfl⟩, rfl⟩

theorem unclaimed_entry_outlives_next_block :
    Call.runAll calls {} = .ok () view ∧ view.Dead nobody.txid ∧ ¬ view.Dead somebody.txid ∧
    ∃ after, Params.regtest.execute { transactions := [somebody] } 18 view = .ok 0 after ∧ after.Dead nobody.txid := by
  have different : somebody.txid ≠ nobody.txid := by decide +kernel
  obtain ⟨newest, _, stays⟩ := Call.dead_entries_never_had_outputs run_calls
  have last (txid : Hash256) : Touch.newest? txid (calls.flatMap Call.touches) =
      if nobody.txid = txid then some (.create nobody 17) else none :=
    Touch.newest?_concat txid [] (.create nobody 17)
  have dead : view.Dead nobody.txid := (newest _).mpr ⟨nobody, 17, (last _).trans (if_pos rfl), rfl⟩
  have absent : ¬ view.Dead somebody.txid := by
    rw [newest, last, if_neg different.symm]
    rintro ⟨_, _, found, _⟩
    cases found
  have executed : Params.regtest.execute { transactions := [somebody] } 18 view =
      .ok 0 (view.update somebody 18) :=
    Params.execute_eq_ok_iff.mpr ⟨rfl, Params.applyAll_cons_eq_ok_iff.mpr ⟨0, rfl, rfl⟩, rfl⟩
  refine ⟨run_calls, dead, absent, _, executed, ?_⟩
  exact stays _ _ _ _ _ executed _ dead (List.forall_mem_singleton.mpr different)

/-- The block passes, and an entry is there with nothing left to spend. -/
theorem accepted_block_leaves_spent_entry :
    ∃ view coins, Call.runAll calls {} = .ok () view ∧ view.get? nobody.txid = some coins ∧ coins.isSpent = true := by
  refine ⟨view, .ofTransaction nobody 17, run_calls, ?_, rfl⟩
  rw [view, update_eq, get?_insert, if_pos rfl]

end Unclaimed
end Mintage
