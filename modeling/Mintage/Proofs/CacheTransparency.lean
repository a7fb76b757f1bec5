import Mathlib.Data.List.Nodup
import Mintage.Proofs.CachedStates

/-! Questions put to one cache, in any order and about any headers of a tree of chains. -/

namespace Mintage.DeploymentCache
open HeaderChain

/-- The header below the block that is asked about, and the deployment. -/
abbrev Query := Option HeaderChain × DeploymentId

def askAll (params : Params) (queries : List Query) : StateM DeploymentCache (List DeploymentState) :=
  queries.mapM fun query => state params query.1 query.2

/-- Every header that the answers can depend on. -/
def inPlay (queries : List Query) : List HeaderChain :=
  queries.flatMap fun query => query.1.elim [] HeaderChain.ancestors

theorem askAll_cons (params : Params) (query : Query) (queries : List Query) (cache : DeploymentCache) :
    askAll params (query :: queries) cache =
      let first := state params query.1 query.2 cache
      let rest := askAll params queries first.2
      (first.1 :: rest.1, rest.2) := by
  simp only [askAll, List.mapM_cons]
  rfl

/-- Induction on the questions: each of them is answered from a faithful cache and leaves one behind. -/
theorem Faithful.askAll {params : Params} {known : List HeaderChain} {cache : DeploymentCache}
    (faithful : cache.Faithful params known) {queries : List Query} (inside : inPlay queries ⊆ known)
    (apart : HashesApart (inPlay queries) known) :
    (askAll params queries cache).1 = queries.map (fun query => params.stateAt query.1 query.2) ∧
      (askAll params queries cache).2.Faithful params known := by
  induction queries generalizing cache with
  | nil => exact ⟨rfl, faithful⟩
  | cons query queries ih =>
    have asked : ∀ node ∈ query.1, node.ancestors ⊆ inPlay (query :: queries) := by
      intro node same
      rw [inPlay, List.flatMap_cons, Option.mem_def.1 same]
      exact List.subset_append_left ..
    have others : inPlay queries ⊆ inPlay (query :: queries) := by
      rw [inPlay, inPlay, List.flatMap_cons]
      exact List.subset_append_right ..
    have askedKnown : ∀ node ∈ query.1, node.ancestors ⊆ known :=
      fun node same => List.Subset.trans (asked node same) inside
    have answer := faithful.state_fst query.2 askedKnown
    have after := faithful.state_snd query.2 askedKnown fun node same => apart.of_subset (asked node same)
    obtain ⟨answers, last⟩ := ih after (List.Subset.trans others inside) (apart.of_subset others)
    rw [askAll_cons, List.map_cons]
    simp only [answer, answers]
    exact ⟨trivial, last⟩

/-- The answer to a question after others. -/
def answerAfter (params : Params) (asked : List Query) (query : Query) : DeploymentState :=
  (state params query.1 query.2 (askAll params asked {}).2).1

/-- Only headers that were asked about have entries, so only their hashes matter. -/
theorem answerAfter_eq_stateAt {params : Params} {known : List HeaderChain} {asked : List Query}
    (inside : inPlay asked ⊆ known) (apart : HashesApart (inPlay asked) known)
    {previous : Option HeaderChain} (id : DeploymentId) (below : ∀ node ∈ previous, node.ancestors ⊆ known) :
    answerAfter params asked (previous, id) = params.stateAt previous id :=
  (faithful_empty.askAll inside apart).2.state_fst id below

theorem answerAfter_of_mem_ancestors {params : Params} {id : DeploymentId} {chain node : HeaderChain}
    {asked : List Query} (distinct : HashesApart (inPlay asked) (inPlay asked ++ chain.ancestors))
    (member : node ∈ chain.ancestors) : answerAfter params asked (some node, id) = params.stateAt (some node) id := by
  apply answerAfter_eq_stateAt (List.subset_append_left ..) distinct
  intro below same
  cases same
  exact List.Subset.trans (ancestors_subset member) (List.subset_append_right ..)

/-- The answers are the ones that each question would get by itself, from the headers alone. -/
theorem answers_eq_stateAt (params : Params) (queries : List Query)
    (apart : HashesApart (inPlay queries) (inPlay queries)) :
    (askAll params queries {}).1 = queries.map fun query => params.stateAt query.1 query.2 :=
  (faithful_empty.askAll (List.Subset.refl _) apart).1

end Mintage.DeploymentCache

/-! Two headers on one parent. Only the first votes, so their answers differ though both rest on the entry
of the parent. -/

namespace Mintage.Fork
open DeploymentCache HeaderChain

def base : HeaderChain := .genesis {}

def voting : HeaderChain := .extend base { previous := base.hash, version := 0x20000002 }

def silent : HeaderChain := .extend base { previous := base.hash }

def queries : List Query := [(some voting, .segwit), (some silent, .segwit), (some base, .segwit), (none, .segwit)]

def params : Params :=
  { Params.regtest with window := 1, threshold := 1, deployments := [⟨.segwit, 1, .height 0, .never⟩] }

theorem hashesApart : HashesApart (inPlay queries) (inPlay queries) := by
  have different : ([base, voting, silent].map HeaderChain.hash).Nodup := by decide +kernel
  have listed : inPlay queries ⊆ [base, voting, silent] := by
    intro node member
    simp only [inPlay, queries, List.flatMap_cons, List.flatMap_nil, Option.elim, voting, silent, base,
      HeaderChain.ancestors, List.mem_append, List.mem_cons, List.not_mem_nil] at member ⊢
    grind
  intro left leftMember right rightMember same
  exact List.inj_on_of_nodup_map different (listed leftMember) (listed rightMember) same

theorem answers_voting_silent : (askAll params queries {}).1 = [.lockedIn, .started, .started, .defined] := by
  rw [answers_eq_stateAt params queries hashesApart]
  decide +kernel

end Mintage.Fork
