import Mintage.Deployment.Cache
import Mintage.Proofs.ChainAncestors

/-! What a cache of deployment states answers. Entries are found by hash, so an entry says something
about a boundary only as far as no other header in play has the same hash. -/

namespace Mintage

namespace Params

variable {params : Params} {deployment : Deployment}

theorem mem_ancestors_of_earlier? {boundary before : HeaderChain} (step : params.earlier? boundary = some before) :
    before ∈ boundary.ancestors := by
  unfold earlier? at step
  split at step
  next => exact (HeaderChain.ancestor?_eq_some_iff.1 step).1
  next => cases step

theorem mem_ancestors_of_boundary? {previous boundary : HeaderChain}
    (step : params.boundary? previous = some boundary) : boundary ∈ previous.ancestors := by
  unfold boundary? at step
  simp only at step
  split at step
  next => exact (HeaderChain.ancestor?_eq_some_iff.1 step).1
  next => cases step

/-- Induction from each boundary to the one a window later. -/
theorem boundary_induction {motive : Option HeaderChain → Prop} (params : Params) (first : motive none)
    (later : ∀ boundary, motive (params.earlier? boundary) → motive (some boundary)) (boundary : Option HeaderChain) :
    motive boundary := by
  cases boundary with
  | none => exact first
  | some boundary =>
    apply later
    cases step : params.earlier? boundary with
    | none => exact first
    | some before =>
      have lower := height_of_earlier? step
      exact boundary_induction params first later (some before)
termination_by boundary.elim 0 fun node => node.height + 1
decreasing_by simp_all

theorem stateAfter_none : params.stateAfter deployment none = .defined := by
  rw [stateAfter]

theorem stateAfter_some (boundary : HeaderChain) :
    params.stateAfter deployment (some boundary) =
      if deployment.start.reached boundary then
        params.nextState deployment boundary (params.stateAfter deployment (params.earlier? boundary))
      else .defined := by
  rw [stateAfter]
  split
  next =>
    split
    next step => simp only [step, stateAfter_none]
    next before step => simp only [step]
  next => rfl

theorem id_of_deployment? {id : DeploymentId} (listed : params.deployment? id = some deployment) :
    deployment.id = id := by
  simpa using List.find?_some listed

end Params

namespace DeploymentCache
open HeaderChain

variable {params : Params} {deployment : Deployment} {cache : DeploymentCache} {known : List HeaderChain}

theorem get?_empty (id : DeploymentId) (boundary : Option HeaderChain) :
    ({} : DeploymentCache).get? id boundary = none := by
  simp [get?]

theorem get?_insert (id other : DeploymentId) (boundary wanted : Option HeaderChain) (state : DeploymentState) :
    (cache.insert id boundary state).get? other wanted =
      if id = other ∧ boundary.map HeaderChain.hash = wanted.map HeaderChain.hash then some state
      else cache.get? other wanted := by
  simp [get?, insert, Std.HashMap.getElem?_insert]

theorem resolve_of_get? {boundary : Option HeaderChain} {state : DeploymentState}
    (held : cache.get? deployment.id boundary = some state) :
    resolve params deployment boundary cache = (state, cache) := by
  cases boundary with
  | none => simp only [resolve, held]
  | some boundary => rw [resolve, held]

theorem resolve_none (absent : cache.get? deployment.id none = none) :
    resolve params deployment none cache = (.defined, cache.insert deployment.id none .defined) := by
  simp only [resolve, absent]

theorem resolve_of_not_reached {boundary : HeaderChain} (absent : cache.get? deployment.id (some boundary) = none)
    (early : ¬ deployment.start.reached boundary) :
    resolve params deployment (some boundary) cache =
      (.defined, cache.insert deployment.id (some boundary) .defined) := by
  rw [resolve, absent]
  exact if_neg early

theorem resolve_of_reached {boundary : HeaderChain} (absent : cache.get? deployment.id (some boundary) = none)
    (begun : deployment.start.reached boundary) :
    resolve params deployment (some boundary) cache =
      let found := resolve params deployment (params.earlier? boundary) cache
      let state := params.nextState deployment boundary found.1
      (state, found.2.insert deployment.id (some boundary) state) := by
  rw [resolve, absent]
  simp only [if_pos begun]
  split
  next step => simp only [step]
  next before step => simp only [step]

/-- Whatever is found for a known boundary is the state after it. -/
def Faithful (params : Params) (known : List HeaderChain) (cache : DeploymentCache) : Prop :=
  ∀ id deployment boundary state, params.deployment? id = some deployment → (∀ node ∈ boundary, node ∈ known) →
    cache.get? id boundary = some state → state = params.stateAfter deployment boundary

theorem faithful_empty : Faithful params known {} := by
  intro id deployment boundary state listed inside held
  rw [get?_empty] at held
  cases held

theorem Faithful.insert (faithful : cache.Faithful params known) {id : DeploymentId}
    (listed : params.deployment? id = some deployment) {boundary : Option HeaderChain}
    (distinct : ∀ left ∈ boundary, ∀ right ∈ known, left.hash = right.hash → left = right) :
    (cache.insert id boundary (params.stateAfter deployment boundary)).Faithful params known := by
  intro other found wanted state otherListed inside held
  rw [get?_insert] at held
  split at held
  next same =>
    cases held
    obtain ⟨sameId, sameHash⟩ := same
    cases sameId
    cases listed.symm.trans otherListed
    have sameBoundary : boundary = wanted := by
      cases boundary with
      | none => exact (Option.map_eq_none_iff.1 sameHash.symm).symm
      | some left =>
        cases wanted with
        | none => cases sameHash
        | some right => rw [distinct left rfl right (inside right rfl) (Option.some.inj sameHash)]
    rw [sameBoundary]
  next => exact faithful other found wanted state otherListed inside held

/-- All lookups of one walk see the cache as it was before, so its answer needs no assumption on hashes. -/
theorem Faithful.resolve_fst (faithful : cache.Faithful params known) {id : DeploymentId}
    (listed : params.deployment? id = some deployment) {boundary : Option HeaderChain}
    (inside : ∀ node ∈ boundary, node.ancestors ⊆ known) :
    (resolve params deployment boundary cache).1 = params.stateAfter deployment boundary := by
  have sameId := Params.id_of_deployment? listed
  cases sameId
  have known_of_mem {boundary : Option HeaderChain} (inside : ∀ node ∈ boundary, node.ancestors ⊆ known) :
      ∀ node ∈ boundary, node ∈ known := fun node member => inside node member node.self_mem_ancestors
  induction boundary using Params.boundary_induction params with
  | first =>
    cases held : cache.get? deployment.id none with
    | some state =>
      rw [resolve_of_get? held]
      exact faithful _ _ _ _ listed (known_of_mem inside) held
    | none => rw [resolve_none held, Params.stateAfter_none]
  | later boundary ih =>
    cases held : cache.get? deployment.id (some boundary) with
    | some state =>
      rw [resolve_of_get? held]
      exact faithful _ _ _ _ listed (known_of_mem inside) held
    | none =>
      rw [Params.stateAfter_some]
      split
      next begun =>
        have below : ∀ node ∈ params.earlier? boundary, node.ancestors ⊆ known := by
          intro node step
          have older := ancestors_subset (Params.mem_ancestors_of_earlier? step)
          exact List.Subset.trans older (inside boundary rfl)
        rw [resolve_of_reached held begun]
        simp only [ih below]
      next early => rw [resolve_of_not_reached held early]

/-- Entries are added for boundaries on the way only, and those have no hash in common with another
known header. -/
theorem Faithful.resolve_snd (faithful : cache.Faithful params known) {id : DeploymentId}
    (listed : params.deployment? id = some deployment) {boundary : Option HeaderChain}
    (inside : ∀ node ∈ boundary, node.ancestors ⊆ known)
    (apart : ∀ node ∈ boundary, HashesApart node.ancestors known) :
    (resolve params deployment boundary cache).2.Faithful params known := by
  have sameId := Params.id_of_deployment? listed
  cases sameId
  induction boundary using Params.boundary_induction params with
  | first =>
    cases held : cache.get? deployment.id none with
    | some state =>
      rw [resolve_of_get? held]
      exact faithful
    | none =>
      rw [resolve_none held, ← Params.stateAfter_none]
      exact faithful.insert listed (by simp)
  | later boundary ih =>
    have answer := faithful.resolve_fst listed inside
    cases held : cache.get? deployment.id (some boundary) with
    | some state =>
      rw [resolve_of_get? held]
      exact faithful
    | none =>
      have distinct : ∀ left ∈ some boundary, ∀ right ∈ known, left.hash = right.hash → left = right := by
        intro left same
        cases same
        exact apart boundary rfl boundary boundary.self_mem_ancestors
      by_cases begun : deployment.start.reached boundary
      · have older {node : HeaderChain} (step : node ∈ params.earlier? boundary) :
            node.ancestors ⊆ boundary.ancestors :=
          ancestors_subset (Params.mem_ancestors_of_earlier? step)
        have before : (resolve params deployment (params.earlier? boundary) cache).2.Faithful params known := by
          apply ih
          · intro node step
            exact List.Subset.trans (older step) (inside boundary rfl)
          · intro node step
            exact (apart boundary rfl).of_subset (older step)
        rw [resolve_of_reached held begun] at answer ⊢
        simp only at answer ⊢
        rw [answer]
        exact before.insert listed distinct
      · rw [resolve_of_not_reached held begun] at answer ⊢
        simp only at answer ⊢
        rw [answer]
        exact faithful.insert listed distinct

theorem Faithful.state_fst (faithful : cache.Faithful params known) {previous : Option HeaderChain}
    (id : DeploymentId)
    (inside : ∀ node ∈ previous, node.ancestors ⊆ known) :
    (state params previous id cache).1 = params.stateAt previous id := by
  unfold state Params.stateAt
  cases listed : params.deployment? id with
  | none => rfl
  | some deployment =>
    by_cases always : deployment.start = .always
    · simp only [if_pos always]
    · simp only [if_neg always]
      apply faithful.resolve_fst listed
      intro boundary step
      obtain ⟨node, same, step⟩ := Option.bind_eq_some_iff.1 step
      exact List.Subset.trans (ancestors_subset (Params.mem_ancestors_of_boundary? step)) (inside node same)

theorem Faithful.state_snd (faithful : cache.Faithful params known) {previous : Option HeaderChain}
    (id : DeploymentId)
    (inside : ∀ node ∈ previous, node.ancestors ⊆ known)
    (apart : ∀ node ∈ previous, HashesApart node.ancestors known) :
    (state params previous id cache).2.Faithful params known := by
  unfold state
  cases listed : params.deployment? id with
  | none => exact faithful
  | some deployment =>
    by_cases always : deployment.start = .always
    · simp only [if_pos always]
      exact faithful
    · simp only [if_neg always]
      have older {node boundary : HeaderChain} (step : params.boundary? node = some boundary) :
          boundary.ancestors ⊆ node.ancestors :=
        ancestors_subset (Params.mem_ancestors_of_boundary? step)
      apply faithful.resolve_snd listed
      · intro boundary step
        obtain ⟨node, same, step⟩ := Option.bind_eq_some_iff.1 step
        exact List.Subset.trans (older step) (inside node same)
      · intro boundary step
        obtain ⟨node, same, step⟩ := Option.bind_eq_some_iff.1 step
        exact (apart node same).of_subset (older step)

end DeploymentCache
end Mintage
