import Mintage.Proofs.EnforcedRules
import Mintage.Proofs.MedianTime
import Mintage.Proofs.StateMoves

/-! How long a terminal state lasts. The walk back to it stops at the first window that ends before the start,
so an active or failed deployment stays so exactly as far as the start stays reached. Only a start at a median
time can be lost, and only where headers are earlier than the median below them. -/

namespace Mintage

/-- Only a median time can be passed and come again. -/
theorem Milestone.reached_of_mem_ancestors {start : Milestone} {earlier node : HeaderChain}
    (older : earlier ∈ node.ancestors) (steady : (∀ time, start ≠ .medianTime time) ∨ node.KeepsPace)
    (begun : start.reached earlier = true) : start.reached node = true := by
  cases start with
  | always => rfl
  | never => cases begun
  | height value =>
    have lower := HeaderChain.height_le_of_mem_ancestors older
    simp only [Milestone.reached, decide_eq_true_eq] at begun ⊢
    omega
  | medianTime value =>
    have paced := steady.resolve_left fun other => other value rfl
    simp only [Milestone.reached, decide_eq_true_eq] at begun ⊢
    exact Nat.le_trans begun (paced.medianTimePast_le older)

namespace Params

variable {params : Params} {id : DeploymentId} {deployment : Deployment} {chain previous node boundary : HeaderChain}

/-- The start is reached wherever a window ends above `previous`. -/
def StartHolds (params : Params) (id : DeploymentId) (previous chain : HeaderChain) : Prop :=
  ∀ deployment ∈ params.deployment? id, ∀ boundary ∈ chain.ancestors,
    params.EndsWindow boundary → previous.height < boundary.height → deployment.start.reached boundary = true

theorem nextState_of_isTerminal {state : DeploymentState} (terminal : state.isTerminal = true) :
    params.nextState deployment boundary state = state := by
  cases state with
  | active | failed => rfl
  | defined | started | lockedIn => cases terminal

theorem exists_windowBoundary_of_le {index : Nat} (within : params.windowSize * (index + 1) ≤ chain.height + 1) :
    ∃ boundary, params.windowBoundary chain (index + 1) = some boundary := by
  have positive := params.windowSize_pos
  rw [Nat.mul_succ] at within
  exact HeaderChain.exists_ancestor? (by omega)

/-- Induction on the windows above `previous`: each ends with the start reached and keeps the state. -/
theorem windowState_of_startHolds (listed : params.deployment? id = some deployment)
    (holds : params.StartHolds id previous chain)
    (terminal : (params.windowState deployment chain (params.windowAfter (some previous))).isTerminal = true)
    {index : Nat} (later : params.windowAfter (some previous) ≤ index)
    (within : params.windowSize * index ≤ chain.height + 1) :
    params.windowState deployment chain index =
      params.windowState deployment chain (params.windowAfter (some previous)) := by
  induction later with
  | refl => rfl
  | @step index later ih =>
    obtain ⟨boundary, found⟩ := exists_windowBoundary_of_le within
    obtain ⟨member, height⟩ := windowBoundary_succ_eq_some_iff.1 found
    have inWindow : previous.height + 1 < params.windowSize * (index + 1) := by
      rw [Nat.mul_comm]
      exact (Nat.div_lt_iff_lt_mul params.windowSize_pos).1 (Nat.lt_succ_of_le later)
    have above : previous.height < boundary.height := by omega
    have begun := holds deployment listed boundary member (endsWindow_of_windowBoundary found).2 above
    have before : params.windowSize * index ≤ chain.height + 1 :=
      Nat.le_trans (Nat.mul_le_mul_left _ (Nat.le_succ index)) within
    rw [windowState_succ_eq found, if_pos begun, ih before, nextState_of_isTerminal terminal]

theorem stateAt_of_startHolds (older : previous ∈ chain.ancestors)
    (terminal : (params.stateAt (some previous) id).isTerminal = true) (holds : params.StartHolds id previous chain)
    (member : node ∈ chain.ancestors) (later : previous.height ≤ node.height) :
    params.stateAt (some node) id = params.stateAt (some previous) id := by
  cases listed : params.deployment? id with
  | none => simp only [stateAt, listed]
  | some deployment =>
    by_cases always : deployment.start = .always
    · simp only [stateAt, listed, if_pos always]
    · have walk {node : HeaderChain} (member : node ∈ chain.ancestors) : params.stateAt (some node) id =
          params.windowState deployment chain (params.windowAfter (some node)) := by
        refine stateAt_eq_windowState listed always ?_
        simpa using member
      rw [walk older] at terminal
      rw [walk member, walk older]
      refine windowState_of_startHolds listed holds terminal ?_ ?_
      · exact Nat.div_le_div_right (Nat.succ_le_succ later)
      · have lower := HeaderChain.height_le_of_mem_ancestors member
        exact Nat.le_trans (Nat.mul_div_le _ _) (Nat.succ_le_succ lower)

/-- All blocks of one window look at the same boundary. -/
theorem boundary?_of_near (ends : params.EndsWindow boundary) (older : boundary ∈ node.ancestors)
    (near : node.height < boundary.height + params.windowSize) : params.boundary? node = some boundary := by
  have lower := HeaderChain.height_le_of_mem_ancestors older
  have past : (node.height + 1) % params.windowSize = node.height - boundary.height := by
    have apart : node.height + 1 = (node.height - boundary.height) + (boundary.height + 1) := by omega
    rw [apart, Nat.add_mod, ends, Nat.add_zero, Nat.mod_mod]
    exact Nat.mod_eq_of_lt (by omega)
  simp only [boundary?, past, Nat.sub_le, if_true]
  exact HeaderChain.ancestor?_eq_some_iff.2 ⟨older, by omega⟩

theorem boundary?_of_endsWindow (ends : params.EndsWindow boundary) : params.boundary? boundary = some boundary :=
  boundary?_of_near ends boundary.self_mem_ancestors (Nat.lt_add_of_pos_right params.windowSize_pos)

theorem stateAt_of_endsWindow (listed : params.deployment? id = some deployment) (bounded : deployment.start ≠ .always)
    (ends : params.EndsWindow boundary) :
    params.stateAt (some boundary) id = params.stateAfter deployment (some boundary) := by
  simp only [stateAt, listed, if_neg bounded, Option.bind_some, boundary?_of_endsWindow ends]

/-- Whatever was before, a window that ends with the start not reached is followed by the first state. -/
theorem stateAt_of_not_reached (listed : params.deployment? id = some deployment) (ends : params.EndsWindow boundary)
    (early : ¬ deployment.start.reached boundary = true) : params.stateAt (some boundary) id = .defined := by
  have bounded : deployment.start ≠ .always := by
    intro always
    rw [always] at early
    exact early rfl
  rw [stateAt_of_endsWindow listed bounded ends, stateAfter_some]
  exact if_neg early

/-- The start was reached below a terminal state, so only a median time that falls back can be lost. -/
theorem startHolds_of_steady (older : previous ∈ chain.ancestors)
    (terminal : (params.stateAt (some previous) id).isTerminal = true)
    (steady : (∀ deployment ∈ params.deployment? id, ∀ time, deployment.start ≠ .medianTime time) ∨ chain.KeepsPace) :
    params.StartHolds id previous chain := by
  intro deployment listed boundary member _ above
  by_cases always : deployment.start = .always
  · rw [always]
    rfl
  · have reached : ∃ first ∈ params.boundary? previous, deployment.start.reached first = true := by
      apply Classical.byContradiction
      intro none
      have first : params.stateAt (some previous) id = .defined := by
        simp only [stateAt, Option.mem_def.1 listed, if_neg always, Option.bind_some]
        exact stateAfter_eq_defined fun node found begun => none ⟨node, found, begun⟩
      rw [first] at terminal
      cases terminal
    obtain ⟨first, found, begun⟩ := reached
    have below := mem_ancestors_of_boundary? found
    have lower := HeaderChain.height_le_of_mem_ancestors below
    have older : first ∈ boundary.ancestors :=
      HeaderChain.mem_ancestors_of_height_le member (HeaderChain.ancestors_subset older below) (by omega)
    have steady : (∀ time, deployment.start ≠ .medianTime time) ∨ boundary.KeepsPace :=
      steady.imp (fun other => other deployment listed) fun paced => paced.of_mem_ancestors member
    exact Milestone.reached_of_mem_ancestors older steady begun

end Params

namespace DeploymentCache
open HeaderChain

/-- A terminal answer, and the rule that follows from it, is given again for every later block of a chain exactly
if the start is reached wherever a later window ends; it is if the start is no median time or headers keep pace. -/
theorem terminal_answer_stays_iff {params : Params} {id : DeploymentId} {chain previous : HeaderChain}
    (older : previous ∈ chain.ancestors) {asked : List Query}
    (apart : HashesApart (inPlay asked) (inPlay asked ++ chain.ancestors))
    (terminal : (answerAfter params asked (some previous, id)).isTerminal = true) :
    ((∀ node ∈ chain.ancestors, previous.height ≤ node.height →
        ∀ askedLater, HashesApart (inPlay askedLater) (inPlay askedLater ++ chain.ancestors) →
          answerAfter params askedLater (some node, id) = answerAfter params asked (some previous, id) ∧
          (flagsAfter params askedLater (some node)).contains (ScriptFlags.ruleOf id) =
            (flagsAfter params asked (some previous)).contains (ScriptFlags.ruleOf id) ∧
          (id = .segwit → witnessAfter params askedLater (some node) = witnessAfter params asked (some previous))) ↔
      params.StartHolds id previous chain) ∧
    ((∀ deployment ∈ params.deployment? id, ∀ time, deployment.start ≠ .medianTime time) ∨ chain.KeepsPace →
      params.StartHolds id previous chain) := by
  have answer {asked : List Query} (apart : HashesApart (inPlay asked) (inPlay asked ++ chain.ancestors))
      {node : HeaderChain} (member : node ∈ chain.ancestors) :
      answerAfter params asked (some node, id) = params.stateAt (some node) id := by
    apply answerAfter_eq_stateAt (List.subset_append_left ..) apart
    intro below same
    cases same
    exact List.Subset.trans (ancestors_subset member) (List.subset_append_right ..)
  rw [answer apart older] at terminal
  refine ⟨⟨?_, ?_⟩, Params.startHolds_of_steady older terminal⟩
  · intro stays deployment listed boundary member ends above
    have fresh : HashesApart (inPlay []) (inPlay [] ++ chain.ancestors) := by simp [HashesApart, inPlay]
    have same := (stays boundary member (Nat.le_of_lt above) [] fresh).1
    apply Classical.byContradiction
    intro early
    rw [answer fresh member, answer apart older, Params.stateAt_of_not_reached listed ends early] at same
    rw [← same] at terminal
    cases terminal
  · intro holds node member later askedLater apartLater
    have same : answerAfter params askedLater (some node, id) = answerAfter params asked (some previous, id) := by
      rw [answer apartLater member, answer apart older]
      exact Params.stateAt_of_startHolds older terminal holds member later
    refine ⟨same, ?_, ?_⟩
    · rw [contains_flagsAfter, contains_flagsAfter, same]
    · intro segwit
      rw [witnessAfter_eq, witnessAfter_eq, ← segwit, same]

end DeploymentCache

/-! A deployment that starts at a median time and needs no votes, in windows of one block. The times of the chain go
back to zero before it is active. -/

namespace Backdated
open DeploymentCache HeaderChain

def deployment : Deployment :=
  ⟨.segwit, 1, .medianTime 100, .never⟩

def params : Params :=
  { Params.regtest with window := 1, threshold := 0, deployments := [deployment] }

def first : HeaderChain := .genesis { time := 100 }

def second : HeaderChain := .extend first { time := 100 }

def active : HeaderChain := .extend second { time := 0 }

def held : HeaderChain := .extend active { time := 0 }

def lost : HeaderChain := .extend held { time := 0 }

private theorem endsWindow (node : HeaderChain) : params.EndsWindow node :=
  Nat.mod_one _

private theorem earlier?_extend (parent : HeaderChain) (header : BlockHeader) :
    params.earlier? (.extend parent header) = some parent := by
  have low : params.windowSize ≤ (HeaderChain.extend parent header).height := Nat.le_add_left 1 parent.height
  rw [Params.earlier?, if_pos low, ancestor?_eq_some_iff]
  exact ⟨List.mem_cons_of_mem _ parent.self_mem_ancestors, rfl⟩

private theorem stateAfter_extend {parent : HeaderChain} {header : BlockHeader}
    (begun : deployment.start.reached (.extend parent header) = true) :
    params.stateAfter deployment (some (.extend parent header)) =
      params.nextState deployment (.extend parent header) (params.stateAfter deployment (some parent)) := by
  rw [Params.stateAfter_some, if_pos begun, earlier?_extend]

private theorem reached {node : HeaderChain}
    (many : (node.recentTimes medianSpan).countP (· < 100) ≤ (node.recentTimes medianSpan).length / 2) :
    deployment.start.reached node = true :=
  (reached_medianTime 100 node).trans (decide_eq_true many)

private theorem fresh (chain : HeaderChain) : HashesApart (inPlay []) (inPlay [] ++ chain.ancestors) := by
  simp [HashesApart, inPlay]

private theorem answerAfter_fresh (node : HeaderChain) :
    answerAfter params [] (some node, .segwit) = params.stateAt (some node) .segwit :=
  answerAfter_of_mem_ancestors (fresh node) node.self_mem_ancestors

private theorem answer_active : answerAfter params [] (some active, .segwit) = .active := by
  have started : params.stateAfter deployment (some first) = .started := by
    rw [Params.stateAfter_some, if_pos (reached (by decide))]
    have bottom : params.earlier? first = none := rfl
    have begun : deployment.start.reached first = true := reached (by decide)
    rw [bottom, Params.stateAfter_none, Params.nextState, if_pos begun]
    rfl
  have lockedIn : params.stateAfter deployment (some second) = .lockedIn := by
    rw [second, stateAfter_extend (reached (by decide)), started, Params.nextState_started_eq_lockedIn_iff]
    exact Nat.zero_le _
  have walk : params.stateAt (some active) .segwit = params.stateAfter deployment (some active) :=
    Params.stateAt_of_endsWindow rfl (by decide) (endsWindow active)
  rw [answerAfter_fresh, walk, active, stateAfter_extend (reached (by decide)), lockedIn, Params.nextState]

/-- Half of the four times hold the start for one more window. -/
theorem active_answer_is_kept :
    (active ∈ held.ancestors ∧ HashesApart (inPlay []) (inPlay [] ++ held.ancestors) ∧
      (answerAfter params [] (some active, .segwit)).isTerminal = true) ∧
    params.StartHolds .segwit active held ∧
    answerAfter params [] (some held, .segwit) = answerAfter params [] (some active, .segwit) := by
  have older : active ∈ held.ancestors := by simp [held, active, HeaderChain.ancestors]
  have terminal : (answerAfter params [] (some active, .segwit)).isTerminal = true := by
    rw [answer_active]
    rfl
  have holds : params.StartHolds .segwit active held := by
    intro listed found boundary member _ above
    cases found
    have top : boundary = held := by
      rcases List.mem_cons.1 member with same | below
      · exact same
      · have lower := height_le_of_mem_ancestors below
        omega
    rw [top]
    exact reached (by decide)
  obtain ⟨stays, -⟩ := terminal_answer_stays_iff older (fresh held) terminal
  exact ⟨⟨older, fresh held, terminal⟩, holds,
    (stays.2 holds held held.self_mem_ancestors (by decide) [] (fresh held)).1⟩

/-- Two headers after it was active, the deployment is defined again and its rule out of force. -/
theorem active_answer_is_lost :
    active ∈ lost.ancestors ∧ answerAfter params [] (some active, .segwit) = .active ∧
    answerAfter params [] (some lost, .segwit) = .defined ∧
    (flagsAfter params [] (some active)).contains .witness = true ∧
    (flagsAfter params [] (some lost)).contains .witness = false ∧
    witnessAfter params [] (some active) = true ∧ witnessAfter params [] (some lost) = false := by
  have early : ¬ deployment.start.reached lost = true := by
    rw [deployment, reached_medianTime]
    decide
  have answer_lost : answerAfter params [] (some lost, .segwit) = .defined := by
    rw [answerAfter_fresh]
    exact Params.stateAt_of_not_reached rfl (endsWindow lost) early
  have rule (node : HeaderChain) : (flagsAfter params [] (some node)).contains .witness =
      (answerAfter params [] (some node, .segwit) == .active) := contains_flagsAfter params [] (some node) .segwit
  rw [rule, rule, witnessAfter_eq, witnessAfter_eq, answer_active, answer_lost]
  exact ⟨by simp [lost, held, active, HeaderChain.ancestors], rfl, rfl, rfl, rfl, rfl, rfl⟩

end Backdated
end Mintage
