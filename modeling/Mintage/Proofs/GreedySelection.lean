import Mathlib.Data.List.Induction
import Mintage.Proofs.TemplateLimits

/-! What a template takes from the mempool, and the account of its fees. The selection goes through the candidates once
and takes each that fits next to those before it; the fees that it lists are those of what it took. -/

namespace Mintage
namespace Assembly

/-- What is demanded of a candidate when these have been taken before it. -/
structure Admits (assembly : Assembly) (taken : List MempoolEntry) (entry : MempoolEntry) : Prop where
  ordinary : entry.tx.isCoinbase = false
  bare : assembly.includeWitness = false → entry.tx.hasWitness = false
  pays : assembly.policy.minFee ≤ entry.fee
  weight : reservedWeight + (taken.map fun other => other.tx.weight).sum + entry.tx.weight < assembly.policy.maxWeight
  size : reservedSize + (taken.map fun other => other.tx.totalSize).sum + entry.tx.totalSize < assembly.policy.maxSize
  new : entry.tx.txid ∉ taken.map fun other => other.tx.txid

section Selection

/-- Going on after some candidates is starting anew with less room, and with their names known. -/
theorem select_append (policy : MinerPolicy) (witness : Bool) (weight size : Nat) (taken : List Hash256)
    (earlier later : List MempoolEntry) :
    select policy witness weight size taken (earlier ++ later) =
      select policy witness weight size taken earlier ++
        select policy witness
          (weight + ((select policy witness weight size taken earlier).map fun entry => entry.tx.weight).sum)
          (size + ((select policy witness weight size taken earlier).map fun entry => entry.tx.totalSize).sum)
          (((select policy witness weight size taken earlier).map fun entry => entry.tx.txid).reverse ++ taken)
          later := by
  fun_induction select policy witness weight size taken earlier with
  | case1 => rfl
  | case2 weight size taken entry rest txid passed ih =>
    rw [List.cons_append, select, if_pos passed]
    exact ih
  | case3 weight size taken entry rest txid fits ih =>
    rw [List.cons_append, select, if_neg fits, ih]
    simp only [List.map_cons, List.sum_cons, List.reverse_cons, List.append_assoc, List.cons_append, List.nil_append,
      Nat.add_assoc]
    rfl

variable {assembly : Assembly} {earlier later candidates : List MempoolEntry} {entry : MempoolEntry}

/-- The selection from later candidates, next to what was taken of the earlier ones. -/
def selectedAfter (assembly : Assembly) (earlier later : List MempoolEntry) : List MempoolEntry :=
  select assembly.policy assembly.includeWitness
    (reservedWeight + ((assembly.selected earlier).map fun entry => entry.tx.weight).sum)
    (reservedSize + ((assembly.selected earlier).map fun entry => entry.tx.totalSize).sum)
    ((assembly.selected earlier).map fun entry => entry.tx.txid).reverse later

theorem selected_append :
    assembly.selected (earlier ++ later) = assembly.selected earlier ++ assembly.selectedAfter earlier later := by
  rw [selected, select_append, List.append_nil]
  rfl

theorem admits_iff {taken : List MempoolEntry} :
    assembly.Admits taken entry ↔
      ¬ (entry.tx.isCoinbase || (!assembly.includeWitness && entry.tx.hasWitness) ||
        decide (entry.fee < assembly.policy.minFee) ||
        decide (reservedWeight + (taken.map fun other => other.tx.weight).sum + entry.tx.weight ≥
          assembly.policy.maxWeight) ||
        decide (reservedSize + (taken.map fun other => other.tx.totalSize).sum + entry.tx.totalSize ≥
          assembly.policy.maxSize) ||
        (taken.map fun other => other.tx.txid).reverse.contains entry.tx.txid) = true := by
  simp only [Bool.or_eq_true, Bool.and_eq_true, Bool.not_eq_true', decide_eq_true_eq, not_or, not_and, ge_iff_le,
    Nat.not_le, Int64.not_lt, List.contains_iff_mem, List.mem_reverse, Bool.not_eq_true]
  constructor
  · intro ⟨ordinary, bare, pays, weight, size, new⟩
    exact ⟨⟨⟨⟨⟨ordinary, bare⟩, pays⟩, weight⟩, size⟩, new⟩
  · intro ⟨⟨⟨⟨⟨ordinary, bare⟩, pays⟩, weight⟩, size⟩, new⟩
    exact ⟨ordinary, bare, pays, weight, size, new⟩

theorem selected_of_admits (admitted : assembly.Admits (assembly.selected earlier) entry) (later : List MempoolEntry) :
    ∃ rest, rest.Sublist later ∧
      assembly.selected (earlier ++ entry :: later) = assembly.selected earlier ++ entry :: rest := by
  rw [selected_append, selectedAfter, select, if_neg (admits_iff.mp admitted)]
  exact ⟨_, select_sublist .., rfl⟩

theorem selected_of_not_admits (refused : ¬ assembly.Admits (assembly.selected earlier) entry)
    (later : List MempoolEntry) :
    ∃ rest, rest.Sublist later ∧ assembly.selected (earlier ++ entry :: later) = assembly.selected earlier ++ rest := by
  rw [admits_iff, not_not] at refused
  rw [selected_append, selectedAfter, select, if_pos refused]
  exact ⟨_, select_sublist .., rfl⟩

/-- What holds of nothing and of every admitted addition holds of the selection. -/
theorem selected_induction {motive : List MempoolEntry → Prop} (none : motive [])
    (take : ∀ taken entry, assembly.Admits taken entry → motive taken → motive (taken ++ [entry]))
    (candidates : List MempoolEntry) : motive (assembly.selected candidates) := by
  induction candidates using List.reverseRecOn with
  | nil => exact none
  | append_singleton earlier entry ih =>
    by_cases admitted : assembly.Admits (assembly.selected earlier) entry
    · obtain ⟨rest, part, taken⟩ := selected_of_admits admitted []
      rw [List.sublist_nil.mp part] at taken
      rw [taken]
      exact take _ entry admitted ih
    · obtain ⟨rest, part, passed⟩ := selected_of_not_admits admitted []
      rw [List.sublist_nil.mp part, List.append_nil] at passed
      rwa [passed]

theorem nodup_selected : ((assembly.selected candidates).map fun entry => entry.tx.txid).Nodup := by
  refine selected_induction (motive := fun chosen => (chosen.map fun entry => entry.tx.txid).Nodup) List.nodup_nil ?_
    candidates
  intro taken entry admitted distinct
  rw [List.map_append, List.map_singleton, List.nodup_append']
  exact ⟨distinct, List.nodup_singleton _, List.disjoint_singleton.mpr admitted.new⟩

theorem admits_of_mem_selected : ∀ entry ∈ assembly.selected candidates, ∃ taken, assembly.Admits taken entry := by
  refine selected_induction (motive := fun chosen => ∀ entry ∈ chosen, ∃ taken, assembly.Admits taken entry) nofun ?_
    candidates
  intro taken entry admitted before
  rw [List.forall_mem_append, List.forall_mem_singleton]
  exact ⟨before, taken, admitted⟩

end Selection

section Ledger

variable {assembly : Assembly} {candidates : List MempoolEntry} {payout : Script} {version : Int32} {bits : UInt32}

theorem fee_nonneg_of_mem_selected (free : 0 ≤ assembly.policy.minFee) :
    ∀ entry ∈ assembly.selected candidates, 0 ≤ entry.fee.toInt := by
  intro entry chosen
  obtain ⟨_, admitted⟩ := admits_of_mem_selected entry chosen
  have paid := admitted.pays
  rw [Int64.le_iff_toInt_le] at free paid
  rw [Int64.toInt_zero] at free
  omega

/-- The commitment carries no value. -/
theorem coinbaseValue_template : (assembly.template candidates payout version bits).coinbaseValue =
    (assembly.payment candidates payout).value := by
  have first : (assembly.template candidates payout version bits).block.coinbase? =
      some (assembly.coinbase candidates payout) :=
    Block.coinbase?_eq_some_iff.mpr ⟨_, rfl, rfl⟩
  have total : (assembly.coinbase candidates payout).totalOutput = (assembly.payment candidates payout).value := by
    cases witness : assembly.includeWitness <;>
      simp [Transaction.totalOutput, coinbase, witness, WitnessCommitment.output, Amount.total]
  rw [BlockTemplate.coinbaseValue, first]
  exact total

theorem toInt_payment (positive : ∀ entry ∈ assembly.selected candidates, 0 ≤ entry.fee.toInt)
    (fits : Amount.Fits (assembly.feeSum candidates)) :
    (assembly.payment candidates payout).value.toInt = if assembly.policy.mode = .proofOfWork
      then min (2 ^ 63 - 1) ((assembly.params.subsidy assembly.height).toInt + assembly.feeSum candidates) else 0 := by
  have fees := toInt_fees_of_fits positive fits
  have total := feeSum_nonneg positive
  have lower := (assembly.params.subsidy assembly.height).le_toInt
  rw [payment]
  split
  next work =>
    rw [work, if_pos rfl, Amount.toInt_add, fees]
    omega
  next other =>
    rw [if_neg other]
    rfl

end Ledger

/-- The selection is the greedy one, the list of fees is that of what it took, and the coinbase is worth what they leave
to it. With fees that add up to an amount, a template is never turned down for them. -/
theorem greedy_selection_balances {assembly : Assembly} (free : 0 ≤ assembly.policy.minFee)
    (candidates : List MempoolEntry) (payout : Script) (version : Int32) :
    ((assembly.selected candidates).Sublist candidates ∧
      ((assembly.selected candidates).map fun entry => entry.tx.txid).Nodup ∧
      ∀ entry ∈ assembly.selected candidates, entry.tx.isCoinbase = false ∧
        (assembly.includeWitness = false → entry.tx.hasWitness = false) ∧ assembly.policy.minFee ≤ entry.fee) ∧
    (∀ earlier entry later, candidates = earlier ++ entry :: later → ∃ rest, rest.Sublist later ∧
      (assembly.Admits (assembly.selected earlier) entry ∧
          assembly.selected candidates = assembly.selected earlier ++ entry :: rest ∨
        ¬ assembly.Admits (assembly.selected earlier) entry ∧
          assembly.selected candidates = assembly.selected earlier ++ rest)) ∧
    (assembly.feeSum candidates < 2 ^ 63 →
      (∀ built, assembly.build version candidates payout = .ok built →
        (∃ coinbase, coinbase.isCoinbase = true ∧
          built.block.transactions = coinbase :: (assembly.selected candidates).map MempoolEntry.tx) ∧
        (∃ first, built.fees = first :: (assembly.selected candidates).map MempoolEntry.fee ∧
          first.toInt = -assembly.feeSum candidates) ∧
        built.coinbaseValue.toInt = if assembly.policy.mode = .proofOfWork
          then min (2 ^ 63 - 1) ((assembly.params.subsidy assembly.height).toInt + assembly.feeSum candidates) else 0) ∧
      ∀ details, assembly.build version candidates payout ≠ .error (.because (.invalidTemplate details))) := by
  refine ⟨⟨select_sublist .., nodup_selected, ?chosen⟩, ?left, ?ledger⟩
  case chosen =>
    intro entry chosen
    obtain ⟨_, admitted⟩ := admits_of_mem_selected entry chosen
    exact ⟨admitted.ordinary, admitted.bare, admitted.pays⟩
  case left =>
    rintro earlier entry later rfl
    by_cases admitted : assembly.Admits (assembly.selected earlier) entry
    · obtain ⟨rest, part, taken⟩ := selected_of_admits admitted later
      exact ⟨rest, part, .inl ⟨admitted, taken⟩⟩
    · obtain ⟨rest, part, passed⟩ := selected_of_not_admits admitted later
      exact ⟨rest, part, .inr ⟨admitted, passed⟩⟩
  case ledger =>
    intro bound
    have positive : ∀ entry ∈ assembly.selected candidates, 0 ≤ entry.fee.toInt := fee_nonneg_of_mem_selected free
    have counted := feeSum_nonneg positive
    have fits : Amount.Fits (assembly.feeSum candidates) := ⟨by omega, bound⟩
    refine ⟨?_, build_ne_invalidTemplate (isConsistent_of_fits positive fits version)⟩
    intro built done
    obtain ⟨bits, _, rfl, _⟩ := build_eq_ok_iff.mp done
    refine ⟨⟨_, assembly.coinbase_isCoinbase candidates payout, rfl⟩, ⟨_, rfl, ?_⟩, ?_⟩
    · rw [Int64.toInt_neg, toInt_fees_of_fits positive fits]
      exact Int.bmod_eq_of_le (by omega) (by omega)
    · rw [coinbaseValue_template, toInt_payment positive fits]

end Assembly

/-! One transaction three times: without a fee, with one, and with the same again. -/

namespace Picked
open Assembly

def payment : MempoolEntry where
  tx := { inputs := [{ previous := ⟨⟨1⟩, 0⟩ }], outputs := [⟨5, [0x51]⟩] }
  fee := 7

def pool : List MempoolEntry :=
  [{ payment with fee := 0 }, payment, payment]

def assembly : Assembly where
  params := .regtest
  policy := { mode := .proofOfWork, minFee := 1 }
  tip := .genesis {}
  witnessActive := true
  options := none
  clock := 100
  stakeBits := fun _ => 0
  validate := fun _ => .ok ()

private theorem isCoinbase_payment : payment.tx.isCoinbase = false := by
  have real : (⟨⟨1⟩, 0⟩ : OutPoint).isNull = false := by simp [OutPoint.isNull, OutPoint.null]
  exact real

private theorem selected_pool : assembly.selected pool = [payment] := by
  have size : payment.tx.totalSize = 61 := rfl
  have weight : payment.tx.weight = 244 := by
    rw [Transaction.weight, size]
    rfl
  have fee : payment.fee = 7 := rfl
  simp [selected, select, pool, assembly, includeWitness, isCoinbase_payment, size, weight, fee, reservedWeight,
    reservedSize, maxBlockWeight]

theorem payment_is_picked_once :
    0 ≤ assembly.policy.minFee ∧ assembly.feeSum pool < 2 ^ 63 ∧
      (∃ built, assembly.build 7 pool [0x51] = .ok built ∧
        (∃ coinbase, coinbase.isCoinbase = true ∧ built.block.transactions = [coinbase, payment.tx]) ∧
        (∃ first, built.fees = [first, 7] ∧ first.toInt = -7) ∧ built.coinbaseValue.toInt = 5000000007) ∧
      (∀ details, assembly.build 7 pool [0x51] ≠ .error (.because (.invalidTemplate details))) ∧
      ∃ rest, rest.Sublist [payment, payment] ∧ ¬ assembly.Admits [] { payment with fee := 0 } ∧
        assembly.selected pool = rest := by
  have free : 0 ≤ assembly.policy.minFee := by decide
  have sum : assembly.feeSum pool = 7 := by
    rw [feeSum, selected_pool]
    rfl
  have bound : assembly.feeSum pool < 2 ^ 63 := by
    rw [sum]
    decide
  obtain ⟨bits, found⟩ : ∃ bits, assembly.bits? = some bits := ⟨_, rfl⟩
  have done : assembly.build 7 pool [0x51] = .ok (assembly.template pool [0x51] 7 bits) := by
    refine build_eq_ok_iff.mpr ⟨bits, found, rfl, fun _ => rfl, ?_⟩
    exact isConsistent_of_fits (fee_nonneg_of_mem_selected free) ⟨by rw [sum]; decide, bound⟩ 7 bits
  obtain ⟨_, split, ledger⟩ := greedy_selection_balances free pool [0x51] 7
  obtain ⟨account, agrees⟩ := ledger bound
  obtain ⟨transactions, fees, value⟩ := account _ done
  rw [selected_pool] at transactions
  rw [selected_pool, sum] at fees
  rw [sum] at value
  refine ⟨free, bound, ⟨_, done, transactions, fees, value.trans (by decide)⟩, agrees, ?_⟩
  obtain ⟨rest, part, ⟨admitted, _⟩ | passed⟩ := split [] _ _ rfl
  · have paid : (1 : Amount) ≤ 0 := admitted.pays
    exact absurd paid (by decide)
  · exact ⟨rest, part, passed⟩

end Picked
end Mintage
