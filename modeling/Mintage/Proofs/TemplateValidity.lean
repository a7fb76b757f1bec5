import Mintage.Proofs.TemplateLimits

/-! When a proof-of-work template of good candidates passes its own check. Whatever the selection takes, the block
keeps every rule, except that a candidate may be taken without another that it spends from. -/

namespace Mintage
open Sequencing

namespace Params

variable {params : Params} {height : Nat} {view : CoinView} {candidates : List MempoolEntry}

theorem fee_nonneg_of_admits (admits : params.Admits height view candidates) :
    ∀ entry ∈ candidates, 0 ≤ entry.fee.toInt := by
  induction candidates generalizing view with
  | nil => simp
  | cons entry rest ih =>
    obtain ⟨charged, admits⟩ := admits_cons_iff.mp admits
    obtain ⟨_, _, _, covered, value⟩ := fee_eq_ok_iff.mp charged
    exact List.forall_mem_cons.mpr ⟨by omega, ih admits⟩

theorem fee_coinbase {tx : Transaction} (coinbase : tx.isCoinbase = true) (sound : tx.checkOutputs = .ok ()) :
    params.fee view tx height = .ok 0 := by
  rw [fee, sound, coinbase]
  rfl

end Params

/-- Only retargeting can leave the range of targets. -/
theorem Params.nextBits?_isSome {params : Params} (fixed : params.noRetargeting = true) (previous : Option HeaderChain)
    (time : UInt32) : (params.nextBits? previous time).isSome = true := by
  cases previous with
  | none => rfl
  | some chain =>
    simp only [nextBits?, retarget?, fixed, if_true]
    split
    · split <;> rfl
    · rfl

namespace Assembly

/-- Candidates that pass one after another, for a proof-of-work template that is checked against the same view. -/
structure Sound (assembly : Assembly) (view : CoinView) (candidates : List MempoolEntry) (payout : Script) : Prop where
  mode : assembly.policy.mode = .proofOfWork
  policy : assembly.policy.validate = .ok ()
  /-- Heights are words of thirty-two bits. -/
  low : assembly.height < 2 ^ 32
  short : payout.length ≤ 100
  validate : assembly.validate = fun block =>
    Validator.check assembly.params view assembly.tip block (.coins maxBlockWeight)
  bits : assembly.bits?.isSome = true
  admits : assembly.params.Admits assembly.height view candidates
  subsidy : 0 ≤ (assembly.params.subsidy assembly.height).toInt
  funds : (assembly.params.subsidy assembly.height).toInt +
    ((candidates.map MempoolEntry.fee).map Int64.toInt).sum ≤ Amount.maxMoney.toInt

namespace Sound

variable {assembly : Assembly} {view : CoinView} {candidates : List MempoolEntry} {payout : Script}
  {version : Int32} {bits : UInt32}

theorem selected_fee_nonneg (sound : assembly.Sound view candidates payout) :
    ∀ entry ∈ assembly.selected candidates, 0 ≤ entry.fee.toInt := by
  intro entry chosen
  exact Params.fee_nonneg_of_admits sound.admits entry ((select_sublist _ _ _ _ _ candidates).subset chosen)

/-- The chosen fees and the subsidy are money, since all fees are. -/
theorem feeSum_le (sound : assembly.Sound view candidates payout) :
    (assembly.params.subsidy assembly.height).toInt + assembly.feeSum candidates ≤ Amount.maxMoney.toInt := by
  have part : (((assembly.selected candidates).map MempoolEntry.fee).map Int64.toInt).Sublist
      ((candidates.map MempoolEntry.fee).map Int64.toInt) :=
    ((select_sublist _ _ _ _ _ candidates).map MempoolEntry.fee).map Int64.toInt
  have less := part.sum_le_sum fun number member => by
    obtain ⟨fee, listed, rfl⟩ := List.mem_map.mp member
    obtain ⟨entry, inside, rfl⟩ := List.mem_map.mp listed
    exact Params.fee_nonneg_of_admits sound.admits entry inside
  have funds := sound.funds
  rw [feeSum_eq]
  omega

theorem fits_feeSum (sound : assembly.Sound view candidates payout) : Amount.Fits (assembly.feeSum candidates) := by
  have bound := sound.feeSum_le
  have subsidy := sound.subsidy
  exact Amount.fits_of_le (feeSum_nonneg sound.selected_fee_nonneg) (by omega)

theorem fees_bounds (sound : assembly.Sound view candidates payout) :
    0 ≤ (assembly.fees candidates).toInt ∧
      (assembly.params.subsidy assembly.height).toInt + (assembly.fees candidates).toInt ≤ Amount.maxMoney.toInt := by
  rw [toInt_fees_of_fits sound.selected_fee_nonneg sound.fits_feeSum]
  exact ⟨feeSum_nonneg sound.selected_fee_nonneg, sound.feeSum_le⟩

theorem isConsistent_template (sound : assembly.Sound view candidates payout) :
    (assembly.template candidates payout version bits).isConsistent = true :=
  isConsistent_of_fits sound.selected_fee_nonneg sound.fits_feeSum version bits

theorem value_payment (sound : assembly.Sound view candidates payout) :
    (assembly.payment candidates payout).value.toInt =
      (assembly.params.subsidy assembly.height).toInt + (assembly.fees candidates).toInt := by
  obtain ⟨positive, bound⟩ := sound.fees_bounds
  rw [payment, sound.mode]
  exact Amount.toInt_add_of_le sound.subsidy positive bound

/-- The commitment carries no value, so the coinbase pays out the subsidy and the fees, which are money. -/
theorem checkOutputs_coinbase (sound : assembly.Sound view candidates payout) :
    (assembly.coinbase candidates payout).checkOutputs = .ok () ∧
      (assembly.coinbase candidates payout).paid = (assembly.payment candidates payout).value.toInt := by
  obtain ⟨positive, bound⟩ := sound.fees_bounds
  have value := sound.value_payment
  have subsidy := sound.subsidy
  have inside : (assembly.payment candidates payout).value.inRange = true :=
    Amount.inRange_iff.mpr ⟨by omega, by omega⟩
  have free : (WitnessCommitment.output (assembly.draft candidates payout)).value.inRange = true := rfl
  have paid : (assembly.coinbase candidates payout).paid = (assembly.payment candidates payout).value.toInt := by
    cases witness : assembly.includeWitness <;> simp [Transaction.paid, coinbase, witness, WitnessCommitment.output]
  refine ⟨(Transaction.checkOutputs_eq_ok_iff _).mpr ⟨?_, ?_⟩, paid⟩
  · cases witness : assembly.includeWitness <;> simp [coinbase, witness, inside, free]
  · rw [paid]
    exact (Amount.inRange_iff.mp inside).2

theorem checkReward_template (sound : assembly.Sound view candidates payout) :
    assembly.params.checkReward (assembly.fees candidates) assembly.height
      (assembly.template candidates payout version bits).block = .ok () := by
  obtain ⟨positive, bound⟩ := sound.fees_bounds
  obtain ⟨outputs, paid⟩ := sound.checkOutputs_coinbase
  have allowed := Amount.toInt_add_of_le positive sound.subsidy (by omega)
  refine Params.checkReward_eq_ok_iff.mpr ⟨_, Block.coinbase?_eq_some_iff.mpr ⟨_, rfl, rfl⟩, outputs, ?_⟩
  rw [Int64.le_iff_toInt_le, Transaction.toInt_totalOutput outputs, paid, sound.value_payment, allowed]
  omega

/-- The template is returned if the chosen candidates run after the coinbase, and pay the fees that they state. -/
theorem build_of_applyAll (sound : assembly.Sound view candidates payout) {after : CoinView}
    (run : assembly.params.applyAll assembly.height ((assembly.selected candidates).map MempoolEntry.tx) 0
      (view.update (assembly.coinbase candidates payout) assembly.height) = .ok (assembly.fees candidates) after) :
    ∃ built, assembly.build version candidates payout = .ok built := by
  obtain ⟨bits, found⟩ := Option.isSome_iff_exists.mp sound.bits
  refine ⟨_, build_eq_ok_iff.mpr ⟨bits, found, rfl, fun _ => ?_, sound.isConsistent_template⟩⟩
  have free : assembly.params.fee view (assembly.coinbase candidates payout) assembly.height = .ok 0 :=
    Params.fee_coinbase (assembly.coinbase_isCoinbase candidates payout) sound.checkOutputs_coinbase.1
  have low := Nat.le_of_lt sound.low
  have fits : (assembly.template candidates payout version bits).block.weight + 64 ≤ assembly.policy.maxWeight :=
    (template_fits sound.policy low fun _ => Nat.le_trans sound.short (by decide)).1
  have limit := (MinerPolicy.limits_of_validate sound.policy).1.2
  rw [sound.validate]
  refine Params.validate_eq_ok_iff.mpr ⟨rfl, by omega, assembly.fees candidates, after, ?_⟩
  exact Params.execute_eq_ok_iff.mpr ⟨checkStructure_template low,
    Params.applyAll_cons_eq_ok_iff.mpr ⟨0, free, run⟩, sound.checkReward_template⟩

theorem applyAll_of_build (sound : assembly.Sound view candidates payout) {built : BlockTemplate}
    (done : assembly.build version candidates payout = .ok built) :
    ∃ fees all after, assembly.params.applyAll assembly.height ((assembly.selected candidates).map MempoolEntry.tx) fees
      (view.update (assembly.coinbase candidates payout) assembly.height) = .ok all after := by
  obtain ⟨bits, _, rfl, checked, _⟩ := build_eq_ok_iff.mp done
  have valid := checked sound.mode
  rw [sound.validate] at valid
  obtain ⟨_, _, all, after, executed⟩ := Params.validate_eq_ok_iff.mp valid
  obtain ⟨_, run, _⟩ := Params.execute_eq_ok_iff.mp executed
  obtain ⟨_, _, run⟩ := Params.applyAll_cons_eq_ok_iff.mp run
  exact ⟨_, all, after, run⟩

end Sound

/-- No two of these transactions have one name, and no coin is under it. -/
structure Fresh (assembly : Assembly) (view : CoinView) (candidates : List MempoolEntry) (payout : Script) : Prop where
  distinct : ((assembly.coinbase candidates payout).txid :: candidates.map fun entry => entry.tx.txid).Nodup
  unknown : ∀ txid ∈ (assembly.coinbase candidates payout).txid :: candidates.map fun entry => entry.tx.txid,
    view.get? txid = none

/-- A template of good candidates is returned if each that is chosen keeps with those it spends from, and if all
names are new, only then. -/
theorem keepsParents_decides_build {assembly : Assembly} {view : CoinView} {candidates : List MempoolEntry}
    {payout : Script} (sound : assembly.Sound view candidates payout) (version : Int32) :
    (KeepsParents [(assembly.coinbase candidates payout).txid] (assembly.selected candidates) candidates →
        ∃ built, assembly.build version candidates payout = .ok built) ∧
      (assembly.Fresh view candidates payout → ∀ built, assembly.build version candidates payout = .ok built →
        KeepsParents [(assembly.coinbase candidates payout).txid] (assembly.selected candidates) candidates) := by
  have own := CoinView.covers_coinbase (assembly.coinbase_isCoinbase candidates payout) assembly.height view
  constructor
  · intro keeps
    obtain ⟨after, run⟩ := Params.applyAll_of_keepsParents keeps sound.admits own 0
    exact sound.build_of_applyAll run
  · intro fresh built done
    obtain ⟨fees, all, after, run⟩ := sound.applyAll_of_build done
    obtain ⟨new, distinct⟩ := List.nodup_cons.mp fresh.distinct
    obtain ⟨hidden, unknown⟩ := List.forall_mem_cons.mp fresh.unknown
    have others : ∀ entry ∈ candidates, entry.tx.txid ≠ (assembly.coinbase candidates payout).txid :=
      fun entry listed same => new (List.mem_map.mpr ⟨entry, listed, same⟩)
    refine Params.keepsParents_of_applyAll (select_sublist _ _ _ _ _ candidates) sound.admits run distinct ?_ ?_
    · intro entry listed
      exact CoinView.get?_update_eq_none (unknown _ (List.mem_map.mpr ⟨entry, listed, rfl⟩)) (others entry listed).symm
    · intro txid listed
      obtain rfl := List.mem_singleton.mp listed
      exact ⟨.inl hidden, others⟩

end Assembly

namespace Family
open Assembly

def origin : Hash256 := ⟨1⟩

def transfer (txid : Hash256) (value : Amount) : Transaction where
  inputs := [{ previous := ⟨txid, 0⟩ }]
  outputs := [⟨value, [0x51]⟩]

def parent : Transaction :=
  transfer origin 100

def child : Transaction :=
  transfer parent.txid 50

/-- The parent leaves nothing to the coinbase, and the child half of what it gets. -/
def pool : List MempoolEntry := [⟨parent, 0⟩, ⟨child, 50⟩]

def view : CoinView where
  entries := (∅ : Std.HashMap Hash256 Coins).insert origin ⟨origin, 0, false, false, [some ⟨100, [0x51]⟩]⟩

def assembly (minFee : Amount) : Assembly where
  params := .regtest
  policy := { mode := .proofOfWork, minFee }
  tip := .genesis {}
  witnessActive := false
  options := none
  clock := 100
  stakeBits := fun _ => 0
  validate := fun block => Validator.check .regtest view (.genesis {}) block (.coins maxBlockWeight)

def reward : Transaction :=
  coinbaseTransaction 1 5000000050 [0x51]

private theorem names_differ :
    (origin ≠ reward.txid ∧ origin ≠ parent.txid ∧ origin ≠ child.txid) ∧
      (reward.txid ≠ parent.txid ∧ reward.txid ≠ child.txid) ∧ parent.txid ≠ child.txid := by
  have distinct : [origin, reward.txid, parent.txid, child.txid].Nodup := by
    decide +kernel
  simpa [not_or] using distinct

private theorem isCoinbase_transfer (txid : Hash256) (value : Amount) : (transfer txid value).isCoinbase = false := by
  have real : (⟨txid, 0⟩ : OutPoint).isNull = false := by simp [OutPoint.isNull, OutPoint.null]
  exact real

private theorem hasWitness_transfer (txid : Hash256) (value : Amount) : (transfer txid value).hasWitness = false :=
  rfl

private theorem totalSize_transfer (txid : Hash256) (value : Amount) : (transfer txid value).totalSize = 61 :=
  rfl

private theorem weight_transfer (txid : Hash256) (value : Amount) : (transfer txid value).weight = 244 := by
  rw [Transaction.weight, totalSize_transfer]
  rfl

private theorem selected_child : (assembly 1).selected pool = [⟨child, 50⟩] := by
  simp [selected, select, pool, parent, child, isCoinbase_transfer, weight_transfer, totalSize_transfer,
    hasWitness_transfer, assembly, reservedWeight, reservedSize, maxBlockWeight, includeWitness]

private theorem selected_all : (assembly 0).selected pool = pool := by
  have other := names_differ.2.2.symm
  rw [child, parent] at other
  simp [selected, select, pool, parent, child, isCoinbase_transfer, weight_transfer, totalSize_transfer,
    hasWitness_transfer, assembly, reservedWeight, reservedSize, maxBlockWeight, includeWitness, other]

private theorem get?_view (txid : Hash256) :
    view.get? txid = if origin = txid then some ⟨origin, 0, false, false, [some ⟨100, [0x51]⟩]⟩ else none := by
  simp [CoinView.get?, view, Std.HashMap.getElem?_insert]

private theorem spent_transfer (txid : Hash256) (value : Amount) : (transfer txid value).spent = [⟨txid, 0⟩] :=
  Transaction.spent_of_not_isCoinbase (isCoinbase_transfer txid value)

private theorem fee_transfer {view : CoinView} {txid : Hash256} {value due : Amount} {coin : Coin}
    (held : view.coin? ⟨txid, 0⟩ = some coin) (ripe : Params.regtest.Ripe 1 coin) (inside : value.inRange = true)
    (balance : coin.output.value.toInt = value.toInt + due.toInt) (positive : 0 ≤ due.toInt) :
    Params.regtest.fee view (transfer txid value) 1 = .ok due := by
  have paid : (transfer txid value).paid = value.toInt := by simp [Transaction.paid, transfer]
  have sound : (transfer txid value).checkOutputs = .ok () := by
    refine (Transaction.checkOutputs_eq_ok_iff _).mpr ⟨by simpa [transfer] using inside, ?_⟩
    rw [paid]
    exact (Amount.inRange_iff.mp inside).2
  rw [← paid] at balance
  exact Params.fee_of_single_coin (spent_transfer txid value) rfl sound held ripe balance positive

private theorem admits_pool : Params.regtest.Admits 1 view pool := by
  have first : view.coin? ⟨origin, 0⟩ = some ⟨0, false, false, ⟨100, [0x51]⟩⟩ := by
    rw [CoinView.coin?, get?_view, if_pos rfl]
    rfl
  have second : (view.update parent 1).coin? ⟨parent.txid, 0⟩ = some ⟨1, false, false, ⟨100, [0x51]⟩⟩ := by
    rw [CoinView.coin?_update, if_pos rfl, parent, isCoinbase_transfer]
    rfl
  have none : Params.regtest.Admits 1 ((view.update parent 1).update child 1) [] := trivial
  refine Params.admits_cons_iff.mpr ⟨fee_transfer first ⟨rfl, rfl⟩ rfl rfl (by decide), ?_⟩
  exact Params.admits_cons_iff.mpr ⟨fee_transfer second ⟨rfl, rfl⟩ rfl rfl (by decide), none⟩

private theorem sound {minFee : Amount} (positive : 0 ≤ minFee) : (assembly minFee).Sound view pool [0x51] := by
  have height : (assembly minFee).height = 1 := rfl
  have subsidy : (assembly minFee).params.subsidy 1 = 5000000000 := by
    change Params.regtest.subsidy 1 = 5000000000
    decide
  constructor
  · rfl
  · simp only [MinerPolicy.validate, guard_eq_ok, Int64.not_lt]
    exact ⟨by simp [assembly, reservedWeight, maxBlockWeight], by simp [assembly, reservedSize], positive, rfl⟩
  · rw [height]
    decide
  · decide
  · rfl
  · have fixed : Params.regtest.noRetargeting = true := rfl
    rw [bits?]
    exact Params.nextBits?_isSome fixed (some (.genesis {})) _
  · exact admits_pool
  · have reward : 0 ≤ Params.regtest.reward := by decide
    exact Params.subsidy_nonneg _ _ reward
  · rw [height, subsidy]
    decide

private theorem coinbase_eq {minFee : Amount} (fees : (assembly minFee).fees pool = 50) :
    (assembly minFee).coinbase pool [0x51] = reward := by
  have value : ((assembly minFee).params.subsidy 1).add 50 = 5000000050 := by
    change (Params.regtest.subsidy 1).add 50 = 5000000050
    decide
  have height : (assembly minFee).height = 1 := rfl
  rw [Assembly.coinbase, payment, fees, height, value]
  rfl

/-- A template of both is returned, and had to have both. -/
theorem family_is_taken :
    (assembly 0).Sound view pool [0x51] ∧ ∃ built, (assembly 0).build 7 pool [0x51] = .ok built ∧
      (assembly 0).Fresh view pool [0x51] ∧
      KeepsParents [((assembly 0).coinbase pool [0x51]).txid] ((assembly 0).selected pool) pool := by
  obtain ⟨⟨first, second, third⟩, ⟨fourth, fifth⟩, sixth⟩ := names_differ
  have good : (assembly 0).Sound view pool [0x51] := sound (by decide)
  have own : (assembly 0).coinbase pool [0x51] = reward := by
    refine coinbase_eq ?_
    rw [fees, selected_all]
    rfl
  have fresh : (assembly 0).Fresh view pool [0x51] := by
    constructor
    · rw [own]
      simp [pool, fourth, fifth, sixth]
    · rw [own]
      simp [pool, get?_view, first, second, third]
  have keeps : KeepsParents [((assembly 0).coinbase pool [0x51]).txid] ((assembly 0).selected pool) pool := by
    rw [own, selected_all]
    refine .take ?_ (.take ?_ .nil)
    · rw [parent, spent_transfer]
      simp [first]
    · rw [child, spent_transfer]
      simp
  obtain ⟨returns, needs⟩ := keepsParents_decides_build good 7
  obtain ⟨built, done⟩ := returns keeps
  exact ⟨good, built, done, fresh, needs fresh built done⟩

/-- The parent's fee is below the least that the policy takes, the child's is not. -/
theorem child_is_taken_alone :
    (assembly 1).Sound view pool [0x51] ∧ ∀ built, (assembly 1).build 7 pool [0x51] ≠ .ok built := by
  obtain ⟨⟨_, unknown, _⟩, ⟨other, _⟩, _⟩ := names_differ
  have good : (assembly 1).Sound view pool [0x51] := sound (by decide)
  have own : (assembly 1).coinbase pool [0x51] = reward := by
    refine coinbase_eq ?_
    rw [fees, selected_child]
    rfl
  refine ⟨good, fun built done => ?_⟩
  obtain ⟨_, _, _, run⟩ := good.applyAll_of_build done
  rw [selected_child, own] at run
  obtain ⟨_, charged, _⟩ := Params.applyAll_cons_eq_ok_iff.mp run
  have spends : ⟨parent.txid, 0⟩ ∈ child.spent := by
    rw [child, spent_transfer]
    exact List.mem_singleton_self _
  have missing : view.get? parent.txid = none := by rw [get?_view, if_neg unknown]
  exact Params.get?_ne_none_of_fee charged spends (CoinView.get?_update_eq_none missing other)

end Family
end Mintage
