import Mintage.Deployment.State
import Mintage.Proofs.ChainAncestors

/-! Voting windows by number. The walks that look for boundaries work on heights; seen from the tip of a
chain they find the same header for every block of one window. -/

namespace Mintage.Params

variable {params : Params} {chain previous boundary : HeaderChain} {index : Nat}

theorem windowSize_pos (params : Params) : 0 < params.windowSize :=
  Nat.le_max_right ..

/-- The window of the block on top of `previous`. -/
def windowAfter (params : Params) (previous : Option HeaderChain) : Nat :=
  (previous.elim 0 fun node => node.height + 1) / params.windowSize

/-- The header below the first one of a window. -/
def windowBoundary (params : Params) (chain : HeaderChain) : (index : Nat) → Option HeaderChain
  | 0 => none
  | index + 1 => chain.ancestor? (params.windowSize * index + (params.windowSize - 1))

def EndsWindow (params : Params) (node : HeaderChain) : Prop :=
  (node.height + 1) % params.windowSize = 0

/-- The headers of one window that vote. -/
def windowVotes (params : Params) (deployment : Deployment) (chain : HeaderChain) (index : Nat) : Nat :=
  chain.ancestors.countP fun node =>
    node.height / params.windowSize = index && signals node.header.version deployment.mask

theorem windowBoundary_succ_eq_some_iff :
    params.windowBoundary chain (index + 1) = some boundary ↔
      boundary ∈ chain.ancestors ∧ boundary.height + 1 = params.windowSize * (index + 1) := by
  have positive := params.windowSize_pos
  rw [windowBoundary, HeaderChain.ancestor?_eq_some_iff, Nat.mul_succ]
  constructor
  · intro found
    exact ⟨found.1, by omega⟩
  · intro found
    exact ⟨found.1, by omega⟩

theorem endsWindow_of_windowBoundary (found : params.windowBoundary chain index = some boundary) :
    boundary ∈ chain.ancestors ∧ params.EndsWindow boundary := by
  cases index with
  | zero => cases found
  | succ index =>
    obtain ⟨member, height⟩ := windowBoundary_succ_eq_some_iff.1 found
    refine ⟨member, ?_⟩
    rw [EndsWindow, height, Nat.mul_mod_right]

theorem boundary?_eq_windowBoundary (older : previous ∈ chain.ancestors) :
    params.boundary? previous = params.windowBoundary chain (params.windowAfter (some previous)) := by
  have split := Nat.div_add_mod (previous.height + 1) params.windowSize
  have positive := params.windowSize_pos
  simp only [boundary?, windowAfter, Option.elim]
  cases index : (previous.height + 1) / params.windowSize with
  | zero =>
    rw [index, Nat.mul_zero] at split
    rw [if_neg (by omega), windowBoundary]
  | succ index' =>
    rw [index, Nat.mul_succ] at split
    rw [if_pos (by omega), windowBoundary, HeaderChain.ancestor?_of_mem_ancestors older (by omega)]
    congr 1
    omega

theorem earlier?_eq_windowBoundary (found : params.windowBoundary chain (index + 1) = some boundary) :
    params.earlier? boundary = params.windowBoundary chain index := by
  obtain ⟨member, height⟩ := windowBoundary_succ_eq_some_iff.1 found
  have positive := params.windowSize_pos
  rw [Nat.mul_succ] at height
  unfold earlier?
  cases index with
  | zero => rw [if_neg (by omega), windowBoundary]
  | succ index =>
    rw [Nat.mul_succ] at height
    rw [if_pos (by omega), windowBoundary, HeaderChain.ancestor?_of_mem_ancestors member (by omega)]
    congr 1
    omega

/-- A window that has a block on top of the chain is preceded by a boundary. -/
theorem exists_windowBoundary {previous : Option HeaderChain} (older : ∀ node ∈ previous, node ∈ chain.ancestors)
    (current : params.windowAfter previous = index + 1) :
    ∃ boundary, params.windowBoundary chain (index + 1) = some boundary := by
  have positive := params.windowSize_pos
  cases previous with
  | none =>
    rw [windowAfter, Option.elim, Nat.zero_div] at current
    cases current
  | some node =>
    have lower := HeaderChain.height_le_of_mem_ancestors (older node rfl)
    have split := Nat.div_add_mod (node.height + 1) params.windowSize
    rw [windowAfter, Option.elim] at current
    rw [current, Nat.mul_succ] at split
    exact HeaderChain.exists_ancestor? (by omega)

theorem votes_eq_windowVotes (deployment : Deployment)
    (found : params.windowBoundary chain (index + 1) = some boundary) :
    params.votes deployment boundary = params.windowVotes deployment chain index := by
  obtain ⟨member, height⟩ := windowBoundary_succ_eq_some_iff.1 found
  have positive := params.windowSize_pos
  rw [votes, windowVotes, HeaderChain.back_of_mem_ancestors _ member, List.countP_filter]
  apply List.countP_congr
  intro node below
  have inWindow : node.height / params.windowSize = index ↔
      node.height ≤ boundary.height ∧ boundary.height < node.height + params.windowSize := by
    rw [Nat.mul_succ] at height
    rw [Nat.div_eq_iff positive, Nat.mul_comm]
    omega
  simp only [Bool.and_eq_true, decide_eq_true_eq, inWindow]
  exact and_comm

end Mintage.Params
