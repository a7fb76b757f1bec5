import Mintage.Mining.Assembly
import Mintage.Proofs.CoinOrigins

/-! Running some candidates without the others. A chosen one finds its coins as long as none of them was to come
from a candidate that was passed over. -/

namespace Mintage

/-- The candidates pass one after another, each with the fee that it states. -/
def Params.Admits (params : Params) (height : Nat) : CoinView → List MempoolEntry → Prop
  | _, [] => True
  | view, entry :: rest =>
    ∃ after, params.apply entry.tx height view = .ok entry.fee after ∧ params.Admits height after rest

/-- Goes through the candidates and takes the chosen ones. None of these may spend an output under a name that is
`absent`, as is the name of everything passed over. -/
inductive KeepsParents : (absent : List Hash256) → (chosen candidates : List MempoolEntry) → Prop where
  | nil {absent} : KeepsParents absent [] []
  | pass {absent entry chosen rest} (later : KeepsParents (entry.tx.txid :: absent) chosen rest) :
      KeepsParents absent chosen (entry :: rest)
  | take {absent entry chosen rest} (present : ∀ point ∈ entry.tx.spent, point.txid ∉ absent)
      (later : KeepsParents (absent.filter (· ≠ entry.tx.txid)) chosen rest) :
      KeepsParents absent (entry :: chosen) (entry :: rest)

namespace CoinView

/-- Every coin of `view` is in `other`, those under absent names apart. -/
def Covers (absent : List Hash256) (view other : CoinView) : Prop :=
  ∀ point, point.txid ∉ absent → ∀ coin, view.coin? point = some coin → other.coin? point = some coin

variable {absent : List Hash256} {view other : CoinView} {tx : Transaction} {height : Nat}

/-- What a transaction takes only from the smaller view stays in the larger one. -/
theorem Covers.pass (covers : Covers absent view other) :
    Covers (tx.txid :: absent) (view.update tx height) other := by
  intro point present coin held
  obtain ⟨foreign, present⟩ := not_or.mp (List.mem_cons.not.mp present)
  rw [coin?_update, if_neg (Ne.symm foreign)] at held
  split at held
  · cases held
  · exact covers point present coin held

theorem Covers.take (covers : Covers absent view other) :
    Covers (absent.filter (· ≠ tx.txid)) (view.update tx height) (other.update tx height) := by
  intro point present coin held
  rw [coin?_update] at held ⊢
  by_cases own : tx.txid = point.txid
  · rw [if_pos own] at held ⊢
    exact held
  · rw [if_neg own] at held ⊢
    split at held
    · cases held
    next unspent =>
      rw [if_neg unspent]
      refine covers point (fun listed => present ?_) coin held
      exact List.mem_filter.mpr ⟨listed, decide_eq_true (Ne.symm own)⟩

/-- A coinbase spends nothing, so it can only hide what was there under its own name. -/
theorem covers_coinbase (coinbase : tx.isCoinbase = true) (height : Nat) (view : CoinView) :
    Covers [tx.txid] view (view.update tx height) := by
  intro point present coin held
  have foreign : tx.txid ≠ point.txid := fun own => present (List.mem_singleton.mpr own.symm)
  rw [coin?_update, if_neg foreign, tx.spent_of_isCoinbase coinbase, if_neg List.not_mem_nil]
  exact held

end CoinView

namespace Params

variable {params : Params} {height : Nat} {absent : List Hash256} {chosen candidates : List MempoolEntry}
  {view other : CoinView}

theorem admits_cons_iff {entry : MempoolEntry} {rest : List MempoolEntry} :
    params.Admits height view (entry :: rest) ↔
      params.fee view entry.tx height = .ok entry.fee ∧ params.Admits height (view.update entry.tx height) rest := by
  simp only [Admits, apply_eq_ok_iff]
  constructor
  · intro ⟨_, ⟨charged, rfl⟩, later⟩
    exact ⟨charged, later⟩
  · intro ⟨charged, later⟩
    exact ⟨_, ⟨charged, rfl⟩, later⟩

/-- Without the candidates passed over, the others run as they did and pay the same. -/
theorem applyAll_of_keepsParents (keeps : KeepsParents absent chosen candidates)
    (admits : params.Admits height view candidates) (covers : CoinView.Covers absent view other) (fees : Amount) :
    ∃ after, params.applyAll height (chosen.map MempoolEntry.tx) fees other =
      .ok ((chosen.map MempoolEntry.fee).foldl Amount.add fees) after := by
  -- `view` is where the full run is and `other` where the run of the chosen ones is, so `pass` moves only `view`.
  induction keeps generalizing view other fees with
  | nil => exact ⟨other, rfl⟩
  | pass later ih => exact ih (admits_cons_iff.mp admits).2 covers.pass fees
  | @take absent entry chosen rest present later ih =>
    obtain ⟨charged, admits⟩ := admits_cons_iff.mp admits
    have due : params.fee other entry.tx height = .ok entry.fee :=
      fee_of_coins charged fun point spends => covers point (present point spends)
    obtain ⟨after, run⟩ := ih admits covers.take (fees.add entry.fee)
    exact ⟨after, applyAll_cons_eq_ok_iff.mpr ⟨entry.fee, due, run⟩⟩

theorem get?_ne_none_of_fee {tx : Transaction} {due : Amount} (charged : params.fee view tx height = .ok due)
    {point : OutPoint} (spends : point ∈ tx.spent) : view.get? point.txid ≠ none := by
  obtain ⟨coins, _, held, _⟩ := (fee_eq_ok_iff.mp charged).2.1 point spends
  rw [held]
  exact Option.some_ne_none coins

/-- Where names are new and distinct, nothing else lets the chosen ones run: an absent name is unknown either to the
full run, which the candidate has passed, or to the run without those passed over. -/
theorem keepsParents_of_applyAll (part : chosen.Sublist candidates) (admits : params.Admits height view candidates)
    {fees all : Amount} {after : CoinView}
    (run : params.applyAll height (chosen.map MempoolEntry.tx) fees other = .ok all after)
    (distinct : (candidates.map fun entry => entry.tx.txid).Nodup)
    (fresh : ∀ entry ∈ candidates, other.get? entry.tx.txid = none)
    (unknown : ∀ txid ∈ absent, (view.get? txid = none ∨ other.get? txid = none) ∧
      ∀ entry ∈ candidates, entry.tx.txid ≠ txid) :
    KeepsParents absent chosen candidates := by
  induction part generalizing view other fees absent with
  | slnil => exact .nil
  | @cons chosen rest entry part ih =>
    obtain ⟨charged, admits⟩ := admits_cons_iff.mp admits
    obtain ⟨new, distinct⟩ := List.nodup_cons.mp distinct
    refine .pass (ih admits run distinct (fun later member => fresh later (List.mem_cons_of_mem _ member)) ?_)
    intro txid listed
    rcases List.mem_cons.mp listed with rfl | listed
    · refine ⟨.inr (fresh entry List.mem_cons_self), fun later member same => new ?_⟩
      exact List.mem_map.mpr ⟨later, member, same⟩
    · obtain ⟨nowhere, others⟩ := unknown txid listed
      have other := others entry List.mem_cons_self
      refine ⟨nowhere.imp_left fun none => CoinView.get?_update_eq_none none other, ?_⟩
      exact fun later member => others later (List.mem_cons_of_mem _ member)
  | @cons_cons chosen rest entry part ih =>
    obtain ⟨charged, admits⟩ := admits_cons_iff.mp admits
    obtain ⟨new, distinct⟩ := List.nodup_cons.mp distinct
    obtain ⟨due, again, run⟩ := applyAll_cons_eq_ok_iff.mp run
    have others : ∀ later ∈ rest, entry.tx.txid ≠ later.tx.txid :=
      fun later member same => new (List.mem_map.mpr ⟨later, member, same.symm⟩)
    refine .take ?_ (ih admits run distinct ?_ ?_)
    · intro point spends listed
      rcases (unknown point.txid listed).1 with none | none
      · exact get?_ne_none_of_fee charged spends none
      · exact get?_ne_none_of_fee again spends none
    · intro later member
      exact CoinView.get?_update_eq_none (fresh later (List.mem_cons_of_mem _ member)) (others later member)
    · intro txid listed
      obtain ⟨nowhere, others⟩ := unknown txid (List.mem_filter.mp listed).1
      have other := others entry List.mem_cons_self
      refine ⟨nowhere.imp (fun none => CoinView.get?_update_eq_none none other)
        fun none => CoinView.get?_update_eq_none none other, ?_⟩
      exact fun later member => others later (List.mem_cons_of_mem _ member)

end Params
end Mintage
