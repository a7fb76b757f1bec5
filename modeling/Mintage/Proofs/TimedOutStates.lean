import Mintage.Proofs.TerminalStates

/-! Deployments that time out. Where a window ends with the timeout reached, a deployment fails unless it was locked in
before or the votes of that window lock it in. The walk asks for the start first, however, and does not look at the
timeout of a deployment that has not started: such a deployment stays defined until its start is reached, and fails
only there. -/

namespace Mintage
namespace Params

variable {params : Params} {id : DeploymentId} {deployment : Deployment} {chain boundary last : HeaderChain}

/-- A bound that is reached where a window ends is reached where any later one ends. -/
def Stays (params : Params) (bound : Milestone) (chain : HeaderChain) : Prop :=
  ∀ earlier ∈ chain.ancestors, ∀ later ∈ chain.ancestors, params.EndsWindow earlier → params.EndsWindow later →
    earlier.height ≤ later.height → bound.reached earlier = true → bound.reached later = true

theorem stays_of_steady {bound : Milestone} (steady : (∀ time, bound ≠ .medianTime time) ∨ chain.KeepsPace) :
    params.Stays bound chain := by
  intro earlier member later memberLater _ _ lower
  have older := HeaderChain.mem_ancestors_of_height_le memberLater member lower
  exact Milestone.reached_of_mem_ancestors older (steady.imp_right fun paced => paced.of_mem_ancestors memberLater)

/-- The window that ends at `boundary`, in which the deployment has this state, does not save it from its timeout. -/
structure Misses (params : Params) (deployment : Deployment) (boundary : HeaderChain) (state : DeploymentState) :
    Prop where
  notLockedIn : state ≠ .lockedIn
  notActive : state ≠ .active
  fewVotes : state = .started → params.votes deployment boundary < params.threshold

theorem misses_of_not_started {state : DeploymentState} (notLockedIn : state ≠ .lockedIn) (notActive : state ≠ .active)
    (notStarted : state ≠ .started) : params.Misses deployment boundary state :=
  ⟨notLockedIn, notActive, fun started => absurd started notStarted⟩

theorem nextState_eq_failed_iff (out : deployment.timeout.reached boundary = true) {state : DeploymentState} :
    params.nextState deployment boundary state = .failed ↔ params.Misses deployment boundary state := by
  cases state with
  | defined =>
    have fails : params.nextState deployment boundary .defined = .failed := if_pos out
    exact iff_of_true fails (misses_of_not_started (by decide) (by decide) (by decide))
  | started =>
    by_cases enough : params.threshold ≤ params.votes deployment boundary
    · have locks := (nextState_started_eq_lockedIn_iff boundary).2 enough
      rw [locks]
      exact iff_of_false (by decide) fun misses => Nat.not_lt.2 enough (misses.fewVotes rfl)
    · have fails : params.nextState deployment boundary .started = .failed := by
        rw [nextState, if_neg enough, if_pos out]
      exact iff_of_true fails ⟨by decide, by decide, fun _ => Nat.not_le.1 enough⟩
  | lockedIn => exact iff_of_false (by simp [nextState]) fun misses => misses.notLockedIn rfl
  | active => exact iff_of_false (by simp [nextState]) fun misses => misses.notActive rfl
  | failed => exact iff_of_true rfl (misses_of_not_started (by decide) (by decide) (by decide))

theorem windowState_succ_eq_failed_iff (out : deployment.timeout.reached boundary = true) {index : Nat}
    (found : params.windowBoundary chain (index + 1) = some boundary) :
    params.windowState deployment chain (index + 1) = .failed ↔
      deployment.start.reached boundary = true ∧
        params.Misses deployment boundary (params.windowState deployment chain index) := by
  rw [windowState_succ_eq found, ← nextState_eq_failed_iff out]
  split
  next begun => simp [begun]
  next early => simp [early]

/-- Induction on the windows after the one that was missed: none of them finds the deployment started, so no votes
are counted any more. -/
theorem windowState_of_misses (stays : params.Stays deployment.timeout chain)
    (out : deployment.timeout.reached boundary = true) {index later : Nat}
    (found : params.windowBoundary chain (index + 1) = some boundary)
    (misses : params.Misses deployment boundary (params.windowState deployment chain index)) (above : index ≤ later)
    (foundLater : params.windowBoundary chain (later + 1) = some last) :
    params.windowState deployment chain (later + 1) =
      if deployment.start.reached last then .failed else .defined := by
  induction above generalizing last with
  | refl =>
    cases found.symm.trans foundLater
    rw [windowState_succ_eq found, (nextState_eq_failed_iff out).2 misses]
  | @step later above ih =>
    obtain ⟨member, height⟩ := windowBoundary_succ_eq_some_iff.1 foundLater
    have inside := HeaderChain.height_le_of_mem_ancestors member
    have shorter : params.windowSize * (later + 1) ≤ params.windowSize * (later + 1 + 1) :=
      Nat.mul_le_mul_left _ (Nat.le_succ _)
    have within : params.windowSize * (later + 1) ≤ chain.height + 1 := by omega
    obtain ⟨before, foundBefore⟩ := exists_windowBoundary_of_le within
    have outLater : deployment.timeout.reached last = true := by
      obtain ⟨first, firstHeight⟩ := windowBoundary_succ_eq_some_iff.1 found
      have lower : params.windowSize * (index + 1) ≤ params.windowSize * (later + 1 + 1) :=
        Nat.mul_le_mul_left _ (Nat.succ_le_succ (Nat.le_succ_of_le above))
      exact stays boundary first last member (endsWindow_of_windowBoundary found).2
        (endsWindow_of_windowBoundary foundLater).2 (by omega) out
    -- Either state that the window before leaves behind fails again where the start is reached.
    have missesLater : params.Misses deployment last (params.windowState deployment chain (later + 1)) := by
      rw [ih foundBefore]
      split <;> exact misses_of_not_started (by decide) (by decide) (by decide)
    rw [windowState_succ_eq foundLater, (nextState_eq_failed_iff outLater).2 missesLater]

theorem windowAfter_parent? (node : HeaderChain) :
    params.windowAfter node.parent? = node.height / params.windowSize := by
  cases node <;> rfl

theorem windowAfter_of_endsWindow (ends : params.EndsWindow boundary) :
    params.windowAfter (some boundary) = boundary.height / params.windowSize + 1 := by
  have positive := params.windowSize_pos
  obtain ⟨count, height⟩ := Nat.dvd_of_mod_eq_zero ends
  have whole : params.windowAfter (some boundary) = count := by
    rw [windowAfter, Option.elim, height, Nat.mul_div_cancel_left _ positive]
  cases count with
  | zero => cases height
  | succ count =>
    rw [Nat.mul_succ] at height
    have full : boundary.height / params.windowSize = count :=
      (Nat.div_eq_iff positive).2 (by rw [Nat.mul_comm]; omega)
    rw [whole, full]

theorem windowBoundary_of_endsWindow (member : boundary ∈ chain.ancestors) (ends : params.EndsWindow boundary) :
    params.windowBoundary chain (boundary.height / params.windowSize + 1) = some boundary := by
  rw [← windowAfter_of_endsWindow ends, ← boundary?_eq_windowBoundary member, boundary?_of_endsWindow ends]

end Params

namespace DeploymentCache
open HeaderChain

theorem answerAfter_eq_windowState {params : Params} {id : DeploymentId} {deployment : Deployment} {chain : HeaderChain}
    (listed : params.deployment? id = some deployment) (bounded : deployment.start ≠ .always) {asked : List Query}
    (apart : HashesApart (inPlay asked) (inPlay asked ++ chain.ancestors)) {previous : Option HeaderChain}
    (older : ∀ node ∈ previous, node ∈ chain.ancestors) :
    answerAfter params asked (previous, id) =
      params.windowState deployment chain (params.windowAfter previous) := by
  rw [answerAfter_eq_stateAt (List.subset_append_left ..) apart id ?_]
  · exact Params.stateAt_eq_windowState listed bounded older
  · intro node same
    exact List.Subset.trans (ancestors_subset (older node same)) (List.subset_append_right ..)

/-- Where a window ends with the timeout reached, the answer is the failed state exactly if the start is reached as well
and the window was missed. A window that was missed is never made up for: all later answers are the failed state, or the
first one where the start is not reached. -/
theorem timed_out_answer_iff {params : Params} {id : DeploymentId} {deployment : Deployment}
    {chain boundary : HeaderChain} (listed : params.deployment? id = some deployment)
    (bounded : deployment.start ≠ .always) (stays : params.Stays deployment.timeout chain)
    (member : boundary ∈ chain.ancestors) (ends : params.EndsWindow boundary)
    (out : deployment.timeout.reached boundary = true) {asked askedLater : List Query}
    (apart : HashesApart (inPlay asked) (inPlay asked ++ chain.ancestors))
    (apartLater : HashesApart (inPlay askedLater) (inPlay askedLater ++ chain.ancestors)) :
    (answerAfter params askedLater (some boundary, id) = .failed ↔
      deployment.start.reached boundary = true ∧
        params.Misses deployment boundary (answerAfter params asked (boundary.parent?, id))) ∧
    (params.Misses deployment boundary (answerAfter params asked (boundary.parent?, id)) →
      ∀ last ∈ chain.ancestors, params.EndsWindow last → boundary.height ≤ last.height →
        answerAfter params askedLater (some last, id) =
          if deployment.start.reached last then .failed else .defined) := by
  have found := Params.windowBoundary_of_endsWindow member ends
  have below : ∀ node ∈ boundary.parent?, node ∈ chain.ancestors := by
    intro node same
    cases boundary with
    | genesis header => cases same
    | extend parent header =>
      cases same
      exact ancestors_subset member (List.mem_cons_of_mem _ node.self_mem_ancestors)
  have answer {last : HeaderChain} (inside : last ∈ chain.ancestors) (endsLater : params.EndsWindow last) :
      answerAfter params askedLater (some last, id) =
        params.windowState deployment chain (last.height / params.windowSize + 1) := by
    rw [← Params.windowAfter_of_endsWindow endsLater]
    exact answerAfter_eq_windowState listed bounded apartLater (by simpa using inside)
  rw [answerAfter_eq_windowState listed bounded apart below, Params.windowAfter_parent?]
  constructor
  · rw [answer member ends]
    exact Params.windowState_succ_eq_failed_iff out found
  · intro misses last inside endsLater later
    rw [answer inside endsLater]
    exact Params.windowState_of_misses stays out found misses (Nat.div_le_div_right later)
      (Params.windowBoundary_of_endsWindow inside endsLater)

end DeploymentCache

/-! Two deployments in windows of one silent block. The first starts and then times out, the second times out before
it starts. -/

namespace Silent
open DeploymentCache HeaderChain

def base : HeaderChain := .genesis {}

def expiring : HeaderChain := .extend base {}

def tip : HeaderChain := .extend expiring {}

def voting (deployment : Deployment) : Params :=
  { Params.regtest with window := 1, threshold := 1, deployments := [deployment] }

def ordered : Deployment :=
  ⟨.segwit, 1, .height 0, .height 2⟩

def reversed : Deployment :=
  ⟨.segwit, 1, .height 3, .height 1⟩

private theorem endsWindow (deployment : Deployment) (node : HeaderChain) : (voting deployment).EndsWindow node :=
  Nat.mod_one _

private theorem fresh : HashesApart (inPlay []) (inPlay [] ++ tip.ancestors) := by
  simp [HashesApart, inPlay]

theorem ordered_fails : (voting ordered).Misses ordered expiring (answerAfter (voting ordered) [] (some base, .segwit)) ∧
    answerAfter (voting ordered) [] (some expiring, .segwit) = .failed ∧
    answerAfter (voting ordered) [] (some tip, .segwit) = .failed := by
  have older : expiring ∈ tip.ancestors := List.mem_cons_of_mem _ expiring.self_mem_ancestors
  have oldest : base ∈ tip.ancestors := ancestors_subset older (List.mem_cons_of_mem _ base.self_mem_ancestors)
  have started : answerAfter (voting ordered) [] (some base, .segwit) = .started := by
    rw [answerAfter_of_mem_ancestors fresh oldest]
    decide +kernel
  have misses : (voting ordered).Misses ordered expiring (answerAfter (voting ordered) [] (some base, .segwit)) := by
    rw [started]
    exact ⟨by decide, by decide, fun _ => by decide +kernel⟩
  have listed : (voting ordered).deployment? .segwit = some ordered := rfl
  have stays : (voting ordered).Stays ordered.timeout tip := Params.stays_of_steady (.inl (by simp [ordered]))
  obtain ⟨-, later⟩ := timed_out_answer_iff listed (by decide) stays older (endsWindow ordered expiring) rfl fresh fresh
  exact ⟨misses, later misses expiring older (endsWindow ordered expiring) (Nat.le_refl _),
    later misses tip tip.self_mem_ancestors (endsWindow ordered tip) (Nat.le_succ _)⟩

/-- The timeout of the second deployment is reached with its first block, and it is still not failed. -/
theorem reversed_stays_defined :
    reversed.start ≠ .always ∧ (voting reversed).Stays reversed.start tip ∧
    (voting reversed).Stays reversed.timeout tip ∧ base ∈ tip.ancestors ∧ (voting reversed).EndsWindow base ∧
    reversed.timeout.reached base = true ∧
    (voting reversed).Misses reversed base (answerAfter (voting reversed) [] (base.parent?, .segwit)) ∧
    answerAfter (voting reversed) [] (some base, .segwit) = .defined := by
  have older : base ∈ tip.ancestors := by simp [tip, expiring, HeaderChain.ancestors, base]
  have listed : (voting reversed).deployment? .segwit = some reversed := rfl
  have first : answerAfter (voting reversed) [] (base.parent?, .segwit) = .defined := by
    rw [answerAfter_eq_windowState listed (by decide) fresh (by simp [base, parent?])]
    exact Params.stateAfter_none
  have early : ¬ reversed.start.reached base = true := by decide
  refine ⟨by decide, Params.stays_of_steady (.inl ?_), Params.stays_of_steady (.inl ?_), older,
    endsWindow reversed base, rfl, ?_, ?_⟩
  · simp [reversed]
  · simp [reversed]
  · rw [first]
    exact Params.misses_of_not_started (by decide) (by decide) (by decide)
  · rw [answerAfter_of_mem_ancestors fresh older]
    exact Params.stateAt_of_not_reached rfl (endsWindow reversed base) early

end Silent
end Mintage
