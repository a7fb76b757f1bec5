import Mathlib.Algebra.BigOperators.Group.Finset.Basic
import Mathlib.Algebra.BigOperators.Ring.Finset
import Mintage.Proofs.Amounts
import Mintage.Proofs.CoinLookup

/-! The money in a coin view, as an exact integer. An operation that changes one entry
changes the supply by the difference in that entry. -/

namespace Mintage

namespace Coins

/-- The value of the outputs that are left. -/
def value (coins : Coins) : Int :=
  (coins.outputs.map fun output => output.elim 0 fun output => output.value.toInt).sum

theorem value_spend (coins : Coins) (index : Nat) :
    (coins.spend index).value = coins.value - (coins.output? index).elim 0 fun output => output.value.toInt := by
  obtain ⟨txid, height, coinbase, coinstake, outputs⟩ := coins
  simp only [value, spend, output?]
  induction outputs generalizing index with
  | nil => simp
  | cons first rest ih =>
    cases index with
    | zero =>
      simp only [List.set_cons_zero, List.map_cons, List.sum_cons, List.getElem?_cons_zero, Option.join_some,
        Option.elim_none]
      omega
    | succ index =>
      have step := ih index
      simp only [List.set_cons_succ, List.map_cons, List.sum_cons, List.getElem?_cons_succ, step]
      omega

theorem value_of_isSpent {coins : Coins} (gone : coins.isSpent = true) : coins.value = 0 := by
  simp only [isSpent, List.all_eq_true, Option.isNone_iff_eq_none] at gone
  apply List.sum_eq_zero
  intro number member
  obtain ⟨output, inside, rfl⟩ := List.mem_map.mp member
  rw [gone output inside, Option.elim_none]

end Coins

/-- The exact sum of what a transaction pays out. -/
def Transaction.paid (tx : Transaction) : Int :=
  (tx.outputs.map fun output => output.value.toInt).sum

theorem Coins.value_ofTransaction (tx : Transaction) (height : Nat) :
    (Coins.ofTransaction tx height).value = tx.paid := by
  simp only [value, ofTransaction, Transaction.paid, List.map_map]
  rfl

namespace CoinView

/-- The value of all unspent outputs. -/
def supply (view : CoinView) : Int :=
  (view.entries.toList.map fun entry => entry.2.value).sum

/-- The value of the unspent outputs of one transaction. -/
def entryValue (view : CoinView) (txid : Hash256) : Int :=
  (view.get? txid).elim 0 Coins.value

/-- The value of one outpoint, nothing if it is spent or unknown. -/
def valueAt (view : CoinView) (point : OutPoint) : Int :=
  (view.output? point).elim 0 fun output => output.value.toInt

theorem supply_empty : ({} : CoinView).supply = 0 := by
  simp [supply]

theorem supply_congr {before after : CoinView} (same : ∀ txid, after.get? txid = before.get? txid) :
    after.supply = before.supply := by
  have equal : after.entries.Equiv before.entries := Std.HashMap.Equiv.of_forall_getElem?_eq same
  exact (equal.toList_perm.map _).sum_eq

private theorem supply_insert_fresh (view : CoinView) (txid : Hash256) (coins : Coins) (fresh : view.get? txid = none) :
    (CoinView.mk (view.entries.insert txid coins)).supply = coins.value + view.supply := by
  have kept : view.entries.toList.filter (fun entry => ¬ (txid == entry.1) = true) = view.entries.toList := by
    apply List.filter_eq_self.mpr
    intro entry member
    have held := Std.HashMap.mem_toList_iff_getElem?_eq_some.mp member
    have other : txid ≠ entry.1 := by
      intro same
      subst same
      cases fresh.symm.trans held
    simpa using other
  have listed := (Std.HashMap.toList_insert_perm (m := view.entries) (k := txid) (v := coins)).map fun entry => entry.2.value
  rw [kept] at listed
  simpa only [supply, List.map_cons, List.sum_cons] using listed.sum_eq

private theorem supply_split (view : CoinView) (txid : Hash256) :
    view.supply = view.entryValue txid + (CoinView.mk (view.entries.erase txid)).supply := by
  have absent : (CoinView.mk (view.entries.erase txid)).get? txid = none := by
    simp [get?]
  cases held : view.get? txid with
  | none =>
    have same : (CoinView.mk (view.entries.erase txid)).supply = view.supply := by
      apply supply_congr
      intro other
      by_cases equal : txid = other
      · subst equal
        rw [absent, held]
      · simp [get?, Std.HashMap.getElem?_erase, equal]
    rw [entryValue, held, same, Option.elim_none, Int.zero_add]
  | some coins =>
    have same : view.supply = (CoinView.mk ((view.entries.erase txid).insert txid coins)).supply := by
      apply supply_congr
      intro other
      by_cases equal : txid = other
      · subst equal
        simpa [get?] using held
      · simp [get?, Std.HashMap.getElem?_insert, Std.HashMap.getElem?_erase, equal]
    rw [same, entryValue, held, Option.elim_some]
    exact supply_insert_fresh (CoinView.mk (view.entries.erase txid)) txid coins absent

/-- The supply moves with the one entry that changes. -/
theorem supply_frame {before after : CoinView} (txid : Hash256)
    (others : ∀ other, txid ≠ other → after.get? other = before.get? other) :
    after.supply = before.supply - before.entryValue txid + after.entryValue txid := by
  have rest : (CoinView.mk (after.entries.erase txid)).supply = (CoinView.mk (before.entries.erase txid)).supply := by
    apply supply_congr
    intro other
    by_cases equal : txid = other
    · subst equal
      simp [get?]
    · simpa [get?, Std.HashMap.getElem?_erase, equal] using others other equal
  rw [supply_split after txid, supply_split before txid, rest]
  omega

theorem supply_insert (view : CoinView) (tx : Transaction) (height : Nat) :
    (view.insert tx height).supply = view.supply - view.entryValue tx.txid + tx.paid := by
  have others : ∀ other, tx.txid ≠ other → (view.insert tx height).get? other = view.get? other := by
    intro other different
    rw [get?_insert, if_neg different]
  rw [supply_frame tx.txid others]
  simp only [entryValue, get?_insert, if_true, Option.elim_some, Coins.value_ofTransaction]

theorem supply_spend (view : CoinView) (point : OutPoint) :
    (view.spend point).supply = view.supply - view.valueAt point := by
  have others : ∀ other, point.txid ≠ other → (view.spend point).get? other = view.get? other := by
    intro other different
    rw [get?_spend, if_neg different]
  rw [supply_frame point.txid others]
  simp only [entryValue, valueAt, output?, get?_spend, if_true]
  cases view.get? point.txid with
  | none => simp
  | some coins =>
    have left := coins.value_spend point.index.toNat
    simp only [Option.map_some, Option.filter, Option.bind_some, Option.elim_some]
    by_cases gone : (coins.spend point.index.toNat).isSpent = true
    · rw [Coins.value_of_isSpent gone] at left
      simp only [gone, Bool.not_true, Bool.false_eq_true, if_false, Option.elim_none]
      omega
    · simp only [gone, Bool.not_false, if_true, Option.elim_some]
      omega

theorem valueAt_spend (view : CoinView) (spent point : OutPoint) :
    (view.spend spent).valueAt point = if spent = point then 0 else view.valueAt point := by
  simp only [valueAt, output?_spend]
  split <;> rfl

/-- However often an outpoint is listed, its value leaves the view once. -/
theorem supply_spendAll (view : CoinView) (points : List OutPoint) :
    (view.spendAll points).supply = view.supply - ∑ point ∈ points.toFinset, view.valueAt point := by
  induction points generalizing view with
  | nil => simp [spendAll]
  | cons first rest ih =>
    have step : view.spendAll (first :: rest) = (view.spend first).spendAll rest := rfl
    have others : ∑ point ∈ rest.toFinset, (view.spend first).valueAt point =
        ∑ point ∈ rest.toFinset.erase first, view.valueAt point := by
      simp only [valueAt_spend, Finset.sum_ite, Finset.sum_const_zero, Int.zero_add]
      congr 1
      ext point
      simp [and_comm, eq_comm]
    have whole := Finset.add_sum_erase (first :: rest).toFinset view.valueAt (List.mem_toFinset.mpr List.mem_cons_self)
    rw [List.toFinset_cons, Finset.erase_insert_eq_erase] at whole
    rw [step, ih, supply_spend, others, List.toFinset_cons]
    omega

end CoinView
end Mintage
