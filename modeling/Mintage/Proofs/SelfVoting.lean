import Mintage.Proofs.TerminalStates
import Mintage.Proofs.VersionVotes

/-! Miners who vote for whatever the cache asks them to. A started deployment gets the vote of every header in the
window, so it is locked in at the next boundary and active from the one after, timed out or not. -/

namespace Mintage

namespace Params

variable {params : Params} {id : DeploymentId} {deployment : Deployment} {chain boundary node : HeaderChain}

theorem stateAt_of_near (ends : params.EndsWindow boundary) (older : boundary ∈ node.ancestors)
    (near : node.height < boundary.height + params.windowSize) (id : DeploymentId) :
    params.stateAt (some node) id = params.stateAt (some boundary) id := by
  simp only [stateAt, Option.bind_some, boundary?_of_near ends older near, boundary?_of_endsWindow ends]

theorem EndsWindow.next (ends : params.EndsWindow boundary)
    (above : node.height = boundary.height + params.windowSize) : params.EndsWindow node := by
  have later : node.height + 1 = boundary.height + 1 + params.windowSize := by omega
  rw [EndsWindow, later, Nat.add_mod_right, ends]

/-- One window of a chain: the state at its end from the state at its beginning. -/
theorem stateAt_next_boundary (listed : params.deployment? id = some deployment) (bounded : deployment.start ≠ .always)
    (ends : params.EndsWindow boundary) (older : boundary ∈ node.ancestors)
    (above : node.height = boundary.height + params.windowSize) (begun : deployment.start.reached node = true) :
    params.stateAt (some node) id = params.nextState deployment node (params.stateAt (some boundary) id) := by
  have full : params.windowSize ≤ node.height := by omega
  have before : params.earlier? node = some boundary := by
    rw [earlier?, if_pos full]
    exact HeaderChain.ancestor?_eq_some_iff.2 ⟨older, by omega⟩
  rw [stateAt_of_endsWindow listed bounded (ends.next above), stateAt_of_endsWindow listed bounded ends,
    stateAfter_some, if_pos begun, before]

theorem votes_eq_windowSize (full : params.windowSize ≤ boundary.height + 1)
    (unanimous : ∀ node ∈ boundary.back params.windowSize, signals node.header.version deployment.mask = true) :
    params.votes deployment boundary = params.windowSize := by
  rw [votes, List.countP_eq_length.2 unanimous, HeaderChain.length_back, Nat.min_eq_left full]

theorem StartHolds.of_le {previous later : HeaderChain} (holds : params.StartHolds id previous chain)
    (above : previous.height ≤ later.height) : params.StartHolds id later chain :=
  fun deployment listed boundary member ends higher =>
    holds deployment listed boundary member ends (Nat.lt_of_le_of_lt above higher)

/-- A deployment is started in the window above `boundary`, and every header of that window votes for it. -/
structure Unanimous (params : Params) (deployment : Deployment) (boundary chain : HeaderChain) : Prop where
  listed : params.deployment? deployment.id = some deployment
  older : boundary ∈ chain.ancestors
  ends : params.EndsWindow boundary
  started : params.stateAt (some boundary) deployment.id = .started
  holds : params.StartHolds deployment.id boundary chain
  votes : ∀ node ∈ chain.ancestors, boundary.height < node.height →
    node.height ≤ boundary.height + params.windowSize → signals node.header.version deployment.mask = true

namespace Unanimous

variable (unanimous : params.Unanimous deployment boundary chain)
include unanimous

theorem bounded : deployment.start ≠ .always := by
  intro always
  have started := unanimous.started
  simp only [stateAt, unanimous.listed, if_pos always] at started
  cases started

theorem begun (inside : node ∈ chain.ancestors) (ends : params.EndsWindow node)
    (above : boundary.height < node.height) : deployment.start.reached node = true :=
  unanimous.holds deployment unanimous.listed node inside ends above

theorem lockedIn_after (reachable : params.threshold ≤ params.windowSize) (inside : node ∈ chain.ancestors)
    (above : node.height = boundary.height + params.windowSize) :
    params.stateAt (some node) deployment.id = .lockedIn := by
  have positive := params.windowSize_pos
  have below := HeaderChain.mem_ancestors_of_height_le inside unanimous.older (by omega)
  have begun := unanimous.begun inside (unanimous.ends.next above) (by omega)
  rw [stateAt_next_boundary unanimous.listed unanimous.bounded unanimous.ends below above begun, unanimous.started,
    nextState_started_eq_lockedIn_iff, votes_eq_windowSize (by omega)]
  · exact reachable
  · intro voter recent
    rw [HeaderChain.back_of_mem_ancestors _ inside, List.mem_filter, Bool.and_eq_true, decide_eq_true_eq,
      decide_eq_true_eq] at recent
    exact unanimous.votes voter recent.1 (by omega) (by omega)

theorem active_after (reachable : params.threshold ≤ params.windowSize) (inside : node ∈ chain.ancestors)
    (above : node.height = boundary.height + 2 * params.windowSize) :
    params.stateAt (some node) deployment.id = .active := by
  have positive := params.windowSize_pos
  have lower : boundary.height + params.windowSize ≤ node.height := by omega
  obtain ⟨voted, found⟩ := HeaderChain.exists_ancestor? lower
  obtain ⟨below, height⟩ := HeaderChain.ancestor?_eq_some_iff.1 found
  have ends := unanimous.ends.next height
  have next : node.height = voted.height + params.windowSize := by omega
  have begun := unanimous.begun inside (ends.next next) (by omega)
  rw [stateAt_next_boundary unanimous.listed unanimous.bounded ends below next begun,
    unanimous.lockedIn_after reachable (HeaderChain.ancestors_subset inside below) height]
  rfl

theorem stateAt (reachable : params.threshold ≤ params.windowSize) (member : node ∈ chain.ancestors) :
    (boundary.height + params.windowSize ≤ node.height → node.height < boundary.height + 2 * params.windowSize →
      params.stateAt (some node) deployment.id = .lockedIn) ∧
    (boundary.height + 2 * params.windowSize ≤ node.height →
      params.stateAt (some node) deployment.id = .active) := by
  constructor
  · intro after before
    obtain ⟨voted, found⟩ := HeaderChain.exists_ancestor? after
    obtain ⟨below, height⟩ := HeaderChain.ancestor?_eq_some_iff.1 found
    rw [stateAt_of_near (unanimous.ends.next height) below (by omega)]
    exact unanimous.lockedIn_after reachable (HeaderChain.ancestors_subset member below) height
  · intro after
    obtain ⟨closing, found⟩ := HeaderChain.exists_ancestor? after
    obtain ⟨below, height⟩ := HeaderChain.ancestor?_eq_some_iff.1 found
    have inside := HeaderChain.ancestors_subset member below
    have active := unanimous.active_after reachable inside height
    have terminal : (params.stateAt (some closing) deployment.id).isTerminal = true := by
      rw [active]
      rfl
    rw [stateAt_of_startHolds inside terminal (unanimous.holds.of_le (by omega)) member (by omega), active]

end Unanimous
end Params

namespace DeploymentCache
open HeaderChain

/-- The version for a block on top of `previous`, after other questions. -/
def versionAfter (params : Params) (asked : List Query) (previous : Option HeaderChain) : Int32 :=
  (blockVersion params previous (askAll params asked {}).2).1

/-- Each header of the window above `boundary` has the version that a cache gives for it, whatever that cache was asked
before. -/
def VotesItself (params : Params) (boundary chain : HeaderChain) : Prop :=
  ∀ parent header, extend parent header ∈ chain.ancestors → boundary.height ≤ parent.height →
    parent.height < boundary.height + params.windowSize →
    ∃ asked, HashesApart (inPlay asked) (inPlay asked ++ chain.ancestors) ∧
      header.version = versionAfter params asked (some parent)

theorem signals_versionAfter {params : Params} {deployment : Deployment} (apart : params.BitsApart)
    (member : deployment ∈ params.deployments) (asked : List Query) (previous : Option HeaderChain) :
    signals (versionAfter params asked previous) deployment.mask =
      (answerAfter params asked (previous, deployment.id)).isSignalling :=
  signals_blockVersion apart member previous _

/-- A started deployment for which one window votes as the cache asks it to is locked in for every block of the next
window and active for all blocks after that. -/
theorem self_voting_activates {params : Params} {deployment : Deployment} {chain boundary : HeaderChain}
    (apart : params.BitsApart) (listed : deployment ∈ params.deployments)
    (reachable : params.threshold ≤ params.windowSize) (older : boundary ∈ chain.ancestors)
    (ends : params.EndsWindow boundary) (holds : params.StartHolds deployment.id boundary chain) {asked : List Query}
    (distinct : HashesApart (inPlay asked) (inPlay asked ++ chain.ancestors))
    (started : answerAfter params asked (some boundary, deployment.id) = .started)
    (voted : VotesItself params boundary chain) {node : HeaderChain} (member : node ∈ chain.ancestors)
    {askedLater : List Query} (distinctLater : HashesApart (inPlay askedLater) (inPlay askedLater ++ chain.ancestors)) :
    (boundary.height + params.windowSize ≤ node.height → node.height < boundary.height + 2 * params.windowSize →
      answerAfter params askedLater (some node, deployment.id) = .lockedIn) ∧
    (boundary.height + 2 * params.windowSize ≤ node.height →
      answerAfter params askedLater (some node, deployment.id) = .active) := by
  rw [answerAfter_of_mem_ancestors distinct older] at started
  rw [answerAfter_of_mem_ancestors distinctLater member]
  refine Params.Unanimous.stateAt ⟨apart.deployment?_of_mem listed, older, ends, started, holds, ?_⟩ reachable member
  intro voter inside above near
  cases voter with
  | genesis header => cases above
  | extend parent header =>
    rw [height_extend] at above near
    obtain ⟨askedBefore, distinctBefore, version⟩ := voted parent header inside (by omega) (by omega)
    have parentInside : parent ∈ chain.ancestors :=
      ancestors_subset inside (List.mem_cons_of_mem _ parent.self_mem_ancestors)
    have below := mem_ancestors_of_height_le parentInside older (by omega)
    change signals header.version deployment.mask = true
    rw [version, signals_versionAfter apart listed, answerAfter_of_mem_ancestors distinctBefore parentInside,
      Params.stateAt_of_near ends below (by omega), started]
    rfl

end DeploymentCache

/-! A deployment that times out where its votes are counted, in windows of two blocks. -/

namespace Timely
open DeploymentCache HeaderChain

def deployment : Deployment :=
  ⟨.segwit, 1, .height 0, .height 4⟩

def params : Params :=
  { Params.regtest with window := 2, threshold := 2, deployments := [deployment] }

def vote (parent : HeaderChain) : HeaderChain :=
  .extend parent { version := versionAfter params [] (some parent) }

def opening : HeaderChain := .extend (.genesis {}) {}

def counted : HeaderChain := vote (vote opening)

def tip : HeaderChain := .extend (.extend counted {}) {}

private theorem fresh : HashesApart (inPlay []) (inPlay [] ++ tip.ancestors) := by
  simp [HashesApart, inPlay]

private theorem votesItself : VotesItself params opening tip := by
  intro parent header inside above near
  rcases List.mem_cons.1 inside with same | inside
  · cases same
    exact absurd near (by decide)
  rcases List.mem_cons.1 inside with same | inside
  · cases same
    exact absurd near (by decide)
  rcases List.mem_cons.1 inside with same | inside
  · cases same
    exact ⟨[], fresh, rfl⟩
  rcases List.mem_cons.1 inside with same | inside
  · cases same
    exact ⟨[], fresh, rfl⟩
  · have lower := height_le_of_mem_ancestors inside
    rw [height_extend] at lower
    omega

theorem votes_outrun_timeout :
    answerAfter params [] (some opening, .segwit) = .started ∧ deployment.timeout.reached counted = true ∧
      answerAfter params [] (some counted, .segwit) = .lockedIn ∧ answerAfter params [] (some tip, .segwit) = .active := by
  have apart : params.BitsApart := ⟨by decide, by decide, by decide⟩
  have older : opening ∈ tip.ancestors := by simp [tip, counted, vote, opening, HeaderChain.ancestors]
  have started : answerAfter params [] (some opening, .segwit) = .started := by
    rw [answerAfter_of_mem_ancestors fresh older]
    decide +kernel
  have holds : params.StartHolds .segwit opening tip := by
    intro listed found boundary _ _ _
    cases found
    simp [Milestone.reached, deployment]
  have inside : counted ∈ tip.ancestors :=
    List.mem_cons_of_mem _ (List.mem_cons_of_mem _ counted.self_mem_ancestors)
  have activates {node : HeaderChain} (member : node ∈ tip.ancestors) :=
    self_voting_activates apart (List.mem_singleton_self deployment) (by decide) older rfl holds fresh started votesItself
      member fresh
  exact ⟨started, rfl, (activates inside).1 (by decide) (by decide), (activates tip.self_mem_ancestors).2 (by decide)⟩

end Timely
end Mintage
