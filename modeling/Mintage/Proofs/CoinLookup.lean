import Mintage.CoinView

/-! What a coin view holds after each of its operations. The entries are read through
`get?` and the single outputs through `output?`; no later proof opens the map. -/

namespace Mintage

namespace Coins

@[simp] theorem txid_ofTransaction (tx : Transaction) (height : Nat) : (ofTransaction tx height).txid = tx.txid := rfl

@[simp] theorem txid_spend (coins : Coins) (index : Nat) : (coins.spend index).txid = coins.txid := rfl

theorem output?_spend (coins : Coins) (spent index : Nat) :
    (coins.spend spent).output? index = if spent = index then none else coins.output? index := by
  simp only [output?, spend, List.getElem?_set]
  split
  next same =>
    subst same
    split <;> rfl
  next => rfl

theorem output?_of_isSpent {coins : Coins} (gone : coins.isSpent = true) (index : Nat) : coins.output? index = none := by
  simp only [isSpent, List.all_eq_true, Option.isNone_iff_eq_none] at gone
  cases found : coins.outputs[index]? with
  | none => simp only [output?, found, Option.join_none]
  | some output =>
    have empty := gone output (List.mem_of_getElem? found)
    simp only [output?, found, empty, Option.join_some]

theorem output?_ofTransaction (tx : Transaction) (height index : Nat) :
    (ofTransaction tx height).output? index = tx.outputs[index]? := by
  simp only [output?, ofTransaction, List.getElem?_map]
  cases tx.outputs[index]? <;> rfl

end Coins

/-- The outputs that a transaction spends, as often as it lists them. A coinbase spends none. -/
def Transaction.spent (tx : Transaction) : List OutPoint :=
  if tx.isCoinbase then [] else tx.inputs.map TxInput.previous

namespace CoinView

/-- The unspent output that an outpoint names. -/
def output? (view : CoinView) (point : OutPoint) : Option TxOutput :=
  (view.get? point.txid).bind fun coins => coins.output? point.index.toNat

def spendAll (view : CoinView) (points : List OutPoint) : CoinView :=
  points.foldl spend view

theorem get?_insert (view : CoinView) (tx : Transaction) (height : Nat) (txid : Hash256) :
    (view.insert tx height).get? txid =
      if tx.txid = txid then some (.ofTransaction tx height) else view.get? txid := by
  simp only [get?, insert, Coins.txid_ofTransaction, Std.HashMap.getElem?_insert, beq_iff_eq]

theorem get?_spend (view : CoinView) (point : OutPoint) (txid : Hash256) :
    (view.spend point).get? txid =
      if point.txid = txid then
        ((view.get? txid).map fun coins => coins.spend point.index.toNat).filter fun coins => !coins.isSpent
      else view.get? txid := by
  by_cases same : point.txid = txid
  · subst same
    rw [if_pos rfl]
    unfold spend
    cases held : view.get? point.txid with
    | none => simpa only [Option.map_none, Option.filter_none] using held
    | some coins =>
      by_cases gone : (coins.spend point.index.toNat).isSpent = true
      · simp [gone, get?, Option.filter]
      · simp [gone, get?, Option.filter]
  · rw [if_neg same]
    cases held : view.get? point.txid with
    | none => simp only [spend, held]
    | some coins =>
      simp only [spend, held]
      split
      · simp only [get?, Std.HashMap.getElem?_erase, beq_iff_eq, same, if_false]
      · simp only [get?, Std.HashMap.getElem?_insert, beq_iff_eq, same, if_false]

theorem update_eq (view : CoinView) (tx : Transaction) (height : Nat) :
    view.update tx height = (view.spendAll tx.spent).insert tx height := by
  simp only [update, spendAll, Transaction.spent]
  split
  · rfl
  · rw [List.foldl_map]

/-- What is read off the outputs of an entry one by one, and not at all off spent ones. -/
structure ReadsUnspent {β : Type} (read : Coins → Nat → Option β) : Prop where
  spend : ∀ coins spent index, read (coins.spend spent) index = if spent = index then none else read coins index
  isSpent : ∀ coins, coins.isSpent = true → ∀ index, read coins index = none

/-- A spend takes away one output and leaves every other where it was, even when the entry goes with it. -/
theorem ReadsUnspent.bind_spend {β : Type} {read : Coins → Nat → Option β} (reads : ReadsUnspent read)
    (view : CoinView) (spent point : OutPoint) :
    (((view.spend spent).get? point.txid).bind fun coins => read coins point.index.toNat) =
      if spent = point then none else (view.get? point.txid).bind fun coins => read coins point.index.toNat := by
  have pruned : ∀ entry : Option Coins, ((entry.filter fun coins => !coins.isSpent).bind
      fun coins => read coins point.index.toNat) = entry.bind fun coins => read coins point.index.toNat := by
    intro entry
    cases entry with
    | none => rfl
    | some coins =>
      by_cases gone : coins.isSpent = true
      · simp only [Option.filter, gone, Bool.not_true, Bool.false_eq_true, if_false, Option.bind_none, Option.bind_some,
          reads.isSpent coins gone]
      · simp only [Option.filter, gone, Bool.not_false, if_true, Option.bind_some]
  rw [get?_spend]
  by_cases entry : spent.txid = point.txid
  · have index : spent.index.toNat = point.index.toNat ↔ spent = point := by
      rw [UInt32.toNat_inj]
      cases spent
      cases point
      simp_all
    rw [if_pos entry, pruned, Option.bind_map]
    simp only [Function.comp_def, reads.spend, index]
    split
    · cases view.get? point.txid <;> rfl
    · rfl
  · have other : spent ≠ point := fun same => entry (same ▸ rfl)
    rw [if_neg entry, if_neg other]

theorem output?_spend (view : CoinView) (spent point : OutPoint) :
    (view.spend spent).output? point = if spent = point then none else view.output? point := by
  have reads : ReadsUnspent Coins.output? := ⟨Coins.output?_spend, fun _ => Coins.output?_of_isSpent⟩
  exact reads.bind_spend view spent point

end CoinView
end Mintage
