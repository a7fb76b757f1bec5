import Mintage.Proofs.CacheTransparency
import Mintage.Proofs.VotingWindows

/-! How the state of a deployment moves from one voting window to the next. Two answers come from walks
that start at different headers; both are states after boundaries of one chain, and the later walk goes
through the earlier boundary. -/

namespace Mintage

/-- The states that the window after one in this state can have. -/
def DeploymentState.successors : DeploymentState → List DeploymentState
  | .defined => [.defined, .started, .failed]
  | .started => [.started, .lockedIn, .failed]
  | .lockedIn => [.active]
  | .active => [.active]
  | .failed => [.failed]

namespace Params

variable {params : Params} {deployment : Deployment} {chain : HeaderChain}

/-- A start that is reached where a window ends is reached where any later one ends. -/
def StartStays (params : Params) (deployment : Deployment) (chain : HeaderChain) : Prop :=
  ∀ earlier ∈ chain.ancestors, ∀ later ∈ chain.ancestors, params.EndsWindow earlier → params.EndsWindow later →
    earlier.height ≤ later.height → deployment.start.reached earlier → deployment.start.reached later

theorem nextState_mem_successors (boundary : HeaderChain) (state : DeploymentState) :
    params.nextState deployment boundary state ∈ state.successors := by
  cases state with
  | defined =>
    simp only [nextState]
    split
    next => simp [DeploymentState.successors]
    next => split <;> simp [DeploymentState.successors]
  | started =>
    simp only [nextState]
    split
    next => simp [DeploymentState.successors]
    next => split <;> simp [DeploymentState.successors]
  | lockedIn => simp [nextState, DeploymentState.successors]
  | active => simp [nextState, DeploymentState.successors]
  | failed => simp [nextState, DeploymentState.successors]

/-- The votes are counted before the timeout is looked at. -/
theorem nextState_started_eq_lockedIn_iff (boundary : HeaderChain) :
    params.nextState deployment boundary .started = .lockedIn ↔
      params.threshold ≤ params.votes deployment boundary := by
  simp only [nextState]
  split
  next enough => simp [enough]
  next few => split <;> simp [few]

theorem stateAfter_eq_defined {boundary : Option HeaderChain}
    (early : ∀ node ∈ boundary, ¬ deployment.start.reached node) :
    params.stateAfter deployment boundary = .defined := by
  cases boundary with
  | none => exact stateAfter_none
  | some node => rw [stateAfter_some, if_neg (early node rfl)]

/-- The state in a numbered window. -/
def windowState (params : Params) (deployment : Deployment) (chain : HeaderChain) (index : Nat) : DeploymentState :=
  params.stateAfter deployment (params.windowBoundary chain index)

theorem windowState_succ_eq {index : Nat} {boundary : HeaderChain}
    (found : params.windowBoundary chain (index + 1) = some boundary) :
    params.windowState deployment chain (index + 1) =
      if deployment.start.reached boundary then
        params.nextState deployment boundary (params.windowState deployment chain index)
      else .defined := by
  rw [windowState, found, stateAfter_some, earlier?_eq_windowBoundary found, windowState]

/-- Either the start was reached and one step is made, or it was not and both states are the first one. -/
theorem windowState_succ (stays : params.StartStays deployment chain) {index : Nat} {boundary : HeaderChain}
    (found : params.windowBoundary chain (index + 1) = some boundary) :
    params.windowState deployment chain (index + 1) =
        params.nextState deployment boundary (params.windowState deployment chain index) ∨
      params.windowState deployment chain (index + 1) = .defined ∧
        params.windowState deployment chain index = .defined := by
  rw [windowState_succ_eq found]
  split
  next => exact .inl rfl
  next early =>
    refine .inr ⟨rfl, stateAfter_eq_defined ?_⟩
    intro node before begun
    obtain ⟨member, ends⟩ := endsWindow_of_windowBoundary found
    obtain ⟨nodeMember, nodeEnds⟩ := endsWindow_of_windowBoundary before
    have lower : node.height ≤ boundary.height := by
      have step := earlier?_eq_windowBoundary found
      rw [before] at step
      exact Nat.le_of_lt (height_of_earlier? step)
    exact early (stays node nodeMember boundary member nodeEnds ends lower begun)

theorem windowState_succ_mem_successors (stays : params.StartStays deployment chain) {index : Nat}
    {boundary : HeaderChain} (found : params.windowBoundary chain (index + 1) = some boundary) :
    params.windowState deployment chain (index + 1) ∈ (params.windowState deployment chain index).successors := by
  obtain stepped | ⟨after, before⟩ := windowState_succ stays found
  · rw [stepped]
    exact nextState_mem_successors boundary _
  · rw [after, before]
    simp [DeploymentState.successors]

theorem windowState_succ_eq_lockedIn_iff (stays : params.StartStays deployment chain) {index : Nat}
    {boundary : HeaderChain} (found : params.windowBoundary chain (index + 1) = some boundary)
    (started : params.windowState deployment chain index = .started) :
    params.windowState deployment chain (index + 1) = .lockedIn ↔
      params.threshold ≤ params.windowVotes deployment chain index := by
  obtain stepped | ⟨-, before⟩ := windowState_succ stays found
  · rw [stepped, started, nextState_started_eq_lockedIn_iff, votes_eq_windowVotes deployment found]
  · rw [before] at started
    cases started

theorem stateAt_eq_windowState {id : DeploymentId} (listed : params.deployment? id = some deployment)
    (bounded : deployment.start ≠ .always) {previous : Option HeaderChain}
    (older : ∀ node ∈ previous, node ∈ chain.ancestors) :
    params.stateAt previous id = params.windowState deployment chain (params.windowAfter previous) := by
  have walk : previous.bind params.boundary? = params.windowBoundary chain (params.windowAfter previous) := by
    cases previous with
    | none => rw [windowAfter, Option.elim, Nat.zero_div, windowBoundary, Option.bind_none]
    | some node => rw [Option.bind_some, boundary?_eq_windowBoundary (older node rfl)]
  simp only [stateAt, listed, if_neg bounded, walk, windowState]

end Params

namespace DeploymentCache
open HeaderChain

/-- The cache may have answered anything before, also in between the two questions. Of a fresh one nothing
is assumed about hashes. -/
theorem answers_move_forward {params : Params} {id : DeploymentId} {deployment : Deployment} {chain : HeaderChain}
    (listed : params.deployment? id = some deployment) (bounded : deployment.start ≠ .always)
    (stays : params.StartStays deployment chain) {asked askedLater : List Query}
    (apart : HashesApart (inPlay asked) (inPlay asked ++ chain.ancestors))
    (apartLater : HashesApart (inPlay askedLater) (inPlay askedLater ++ chain.ancestors))
    {previous following : Option HeaderChain} (older : ∀ node ∈ previous, node ∈ chain.ancestors)
    (olderLater : ∀ node ∈ following, node ∈ chain.ancestors) :
    (params.windowAfter previous = params.windowAfter following →
      answerAfter params asked (previous, id) = answerAfter params askedLater (following, id)) ∧
    (params.windowAfter following = params.windowAfter previous + 1 →
      answerAfter params askedLater (following, id) ∈ (answerAfter params asked (previous, id)).successors ∧
      (answerAfter params asked (previous, id) = .started →
        (answerAfter params askedLater (following, id) = .lockedIn ↔
          params.threshold ≤ params.windowVotes deployment chain (params.windowAfter previous)))) := by
  have answer {asked : List Query} {previous : Option HeaderChain}
      (apart : HashesApart (inPlay asked) (inPlay asked ++ chain.ancestors))
      (older : ∀ node ∈ previous, node ∈ chain.ancestors) :
      answerAfter params asked (previous, id) =
        params.windowState deployment chain (params.windowAfter previous) := by
    rw [answerAfter_eq_stateAt (List.subset_append_left ..) apart id ?_]
    · exact Params.stateAt_eq_windowState listed bounded older
    · intro node same
      exact List.Subset.trans (HeaderChain.ancestors_subset (older node same)) (List.subset_append_right ..)
  rw [answer apart older, answer apartLater olderLater]
  constructor
  · intro sameWindow
    rw [sameWindow]
  · intro nextWindow
    obtain ⟨boundary, found⟩ := Params.exists_windowBoundary olderLater nextWindow
    rw [nextWindow]
    exact ⟨Params.windowState_succ_mem_successors stays found, Params.windowState_succ_eq_lockedIn_iff stays found⟩

end DeploymentCache

namespace Fork
open DeploymentCache HeaderChain

/-- Voting ends with the header that votes. -/
def closing : Params :=
  { params with deployments := [⟨.segwit, 1, .height 0, .height 2⟩] }

theorem vote_locks_in_at_timeout :
    answerAfter closing [] (some base, .segwit) = .started ∧
      answerAfter closing [(some base, .segwit)] (some voting, .segwit) = .lockedIn := by
  have onChain : ∀ node ∈ some base, node ∈ voting.ancestors := by simp [voting, base, HeaderChain.ancestors]
  have tipOnChain : ∀ node ∈ some voting, node ∈ voting.ancestors := by simp [voting, HeaderChain.ancestors]
  have asked : inPlay [(some base, .segwit)] ⊆ inPlay queries := by simp [inPlay, queries]
  have chained : voting.ancestors ⊆ inPlay queries := by simp [inPlay, queries]
  have apart : HashesApart (inPlay [(some base, .segwit)]) (inPlay [(some base, .segwit)] ++ voting.ancestors) :=
    fun left leftMember right rightMember =>
      hashesApart left (asked leftMember) right (List.append_subset.2 ⟨asked, chained⟩ rightMember)
  have stays : closing.StartStays ⟨.segwit, 1, .height 0, .height 2⟩ voting := by
    intro earlier _ later _ _ _ _ _
    simp [Milestone.reached]
  have listed : closing.deployment? .segwit = some ⟨.segwit, 1, .height 0, .height 2⟩ := rfl
  have fresh : HashesApart (inPlay []) (inPlay [] ++ voting.ancestors) := by simp [HashesApart, inPlay]
  have started : answerAfter closing [] (some base, .segwit) = .started := by
    have below : ∀ node ∈ some base, node.ancestors ⊆ inPlay [] ++ voting.ancestors := by
      simp [inPlay, voting, HeaderChain.ancestors]
    rw [answerAfter_eq_stateAt (List.subset_append_left ..) fresh .segwit below]
    decide +kernel
  obtain ⟨-, forward⟩ := answers_move_forward listed (by decide) stays fresh apart onChain tipOnChain
  exact ⟨started, ((forward (by decide +kernel)).2 started).2 (by decide +kernel)⟩

end Fork
end Mintage
