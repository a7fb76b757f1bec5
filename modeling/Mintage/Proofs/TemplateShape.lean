import Mintage.Mining.Assembly
import Mintage.Proofs.Amounts
import Mintage.Proofs.Sequencing

/-! The template that an assembly returns, written out: its coinbase in its final form, the chosen
transactions behind it, and what has to hold for it to be returned at all. -/

namespace Mintage
open Sequencing

namespace Assembly

variable (assembly : Assembly) (candidates : List MempoolEntry) (payout : Script)

/-- What the chosen transactions leave to the coinbase. -/
def fees : Amount :=
  Amount.total ((assembly.selected candidates).map MempoolEntry.fee)

/-- The same without the bounds of an amount. -/
def feeSum : Int :=
  ((assembly.selected candidates).map fun entry => entry.fee.toInt).sum

/-- The block that the commitment to the witnesses is taken over. -/
def draft : Block :=
  assembly.body (assembly.fees candidates) (assembly.selected candidates) payout

/-- The first output of the coinbase. Only proof of work pays through it. -/
def payment : TxOutput :=
  match assembly.policy.mode with
  | .proofOfWork => ⟨(assembly.params.subsidy assembly.height).add (assembly.fees candidates), payout⟩
  | _ => .empty

def coinbase : Transaction where
  inputs := [{ scriptSig := coinbaseScript assembly.height }]
  outputs := assembly.payment candidates payout ::
    if assembly.includeWitness then [WitnessCommitment.output (assembly.draft candidates payout)] else []

def template (version : Int32) (bits : UInt32) : BlockTemplate where
  block := Block.sealed {
    header := { version, previous := assembly.tip.hash, time := assembly.time, bits }
    transactions := assembly.coinbase candidates payout :: (assembly.selected candidates).map MempoolEntry.tx }
  fees := -assembly.fees candidates :: (assembly.selected candidates).map MempoolEntry.fee
  commitment :=
    if assembly.includeWitness then some (WitnessCommitment.output (assembly.draft candidates payout)).script else none
  height := assembly.height

theorem coinbase_isCoinbase : (assembly.coinbase candidates payout).isCoinbase = true :=
  rfl

private theorem finishHeader_committed (version : Int32) (bits : UInt32) :
    assembly.finishHeader version bits
        (assembly.finishCoinbase (assembly.committed (assembly.draft candidates payout)).1) =
      (assembly.template candidates payout version bits).block := by
  have null : OutPoint.null.isNull = true := rfl
  cases witness : assembly.includeWitness <;> cases mode : assembly.policy.mode <;>
    simp [finishHeader, finishCoinbase, committed, template, coinbase, payment, draft, body, witness, mode,
      Block.modifyFirst, Block.clearCoinbase, coinbaseTransaction, Transaction.isCoinbase, null]

private theorem committed_snd (version : Int32) (bits : UInt32) :
    (assembly.committed (assembly.draft candidates payout)).2 =
      (assembly.template candidates payout version bits).commitment := by
  rw [committed, template]
  cases assembly.includeWitness <;> rfl

/-- How a finished template is handed out. -/
def returned (assembly : Assembly) (built : BlockTemplate) : Except (Fault TemplateError) BlockTemplate := do
  if assembly.policy.mode = .proofOfWork then
    (assembly.validate built.block).mapError (.because ∘ .consensus)
  if !built.isConsistent then throw (.because (.invalidTemplate "fee list does not match transactions"))
  return built

variable {assembly candidates payout}

theorem build_eq (version : Int32) :
    assembly.build version candidates payout =
      assembly.bits?.elim (.error .overflow) fun bits =>
        assembly.returned (assembly.template candidates payout version bits) := by
  have fees : Amount.total ((assembly.selected candidates).map MempoolEntry.fee) = assembly.fees candidates := rfl
  have draft : assembly.body (assembly.fees candidates) (assembly.selected candidates) payout =
    assembly.draft candidates payout := rfl
  rw [build]
  simp only [fees, draft]
  cases found : assembly.bits? with
  | none => rfl
  | some bits =>
    have whole : BlockTemplate.mk (assembly.template candidates payout version bits).block
        (-assembly.fees candidates :: (assembly.selected candidates).map MempoolEntry.fee)
        (assembly.template candidates payout version bits).commitment assembly.height =
      assembly.template candidates payout version bits := rfl
    simp only [finishHeader_committed, assembly.committed_snd candidates payout version bits, whole]
    rfl

theorem returned_eq_ok_iff {finished built : BlockTemplate} :
    assembly.returned finished = .ok built ↔
      built = finished ∧ (assembly.policy.mode = .proofOfWork → assembly.validate built.block = .ok ()) ∧
        built.isConsistent = true := by
  rw [returned, when_eq_ok]
  simp only [mapError_eq_ok, guard_eq_ok, pure_eq_ok, Bool.not_eq_true', Bool.not_eq_false]
  constructor
  · intro ⟨valid, consistent, same⟩
    subst same
    exact ⟨rfl, valid, consistent⟩
  · intro ⟨same, valid, consistent⟩
    subst same
    exact ⟨valid, consistent, rfl⟩

theorem build_eq_ok_iff {version : Int32} {built : BlockTemplate} :
    assembly.build version candidates payout = .ok built ↔
      ∃ bits, assembly.bits? = some bits ∧ built = assembly.template candidates payout version bits ∧
        (assembly.policy.mode = .proofOfWork → assembly.validate built.block = .ok ()) ∧
        built.isConsistent = true := by
  rw [build_eq]
  cases assembly.bits? with
  | none => simp
  | some bits => simp only [Option.elim_some, returned_eq_ok_iff, Option.some.injEq, exists_eq_left']

/-- No template whose fees agree is turned down as inconsistent. -/
theorem build_ne_invalidTemplate {version : Int32}
    (consistent : ∀ bits, (assembly.template candidates payout version bits).isConsistent = true) (details : String) :
    assembly.build version candidates payout ≠ .error (.because (.invalidTemplate details)) := by
  rw [build_eq]
  cases assembly.bits? with
  | none => nofun
  | some bits =>
    simp only [Option.elim_some, returned, consistent bits]
    split
    · cases assembly.validate (assembly.template candidates payout version bits).block with
      | error cause => nofun
      | ok _ => nofun
    · nofun

section Fees

variable (positive : ∀ entry ∈ assembly.selected candidates, 0 ≤ entry.fee.toInt)
  (fits : Amount.Fits (assembly.feeSum candidates))

theorem feeSum_eq : assembly.feeSum candidates =
    (((assembly.selected candidates).map MempoolEntry.fee).map Int64.toInt).sum := by
  rw [feeSum, List.map_map]
  rfl

include positive

theorem feeSum_nonneg : 0 ≤ assembly.feeSum candidates := by
  rw [feeSum_eq]
  exact Amount.sum_toInt_nonneg (List.forall_mem_map.mpr positive)

include fits

theorem toInt_fees_of_fits : (assembly.fees candidates).toInt = assembly.feeSum candidates := by
  rw [feeSum_eq] at fits ⊢
  exact Amount.toInt_total_of_fits (List.forall_mem_map.mpr positive) fits

theorem isConsistent_of_fits (version : Int32) (bits : UInt32) :
    (assembly.template candidates payout version bits).isConsistent = true := by
  have sum := Amount.toInt_foldl_sum ((assembly.selected candidates).map MempoolEntry.fee) 0
    (List.forall_mem_map.mpr positive) (by decide) (by rwa [Int64.toInt_zero, Int.zero_add, ← feeSum_eq])
  have total : (assembly.template candidates payout version bits).totalFees = assembly.fees candidates := by
    rw [← Int64.toInt_inj, toInt_fees_of_fits positive fits, feeSum_eq, BlockTemplate.totalFees]
    simpa only [template, List.tail_cons, Int64.toInt_zero, Int.zero_add] using sum
  rw [BlockTemplate.isConsistent, total]
  simp [template, Block.sealed]

end Fees

end Assembly
end Mintage
