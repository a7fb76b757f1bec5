import Mintage.Proofs.CacheTransparency
import Mintage.ScriptFlags

/-! The rules that a block is checked under, read off the answers of one cache. Questions about different
deployments use different entries, so one cannot change the answer to the other. -/

namespace Mintage

namespace ScriptFlags

/-- The rule that comes into force with a deployment. -/
def ruleOf : DeploymentId → ScriptFlags
  | .testDummy => {}
  | .csv => checkSequenceVerify
  | .segwit => witness

theorem contains_ofStates_csv (csv segwit : DeploymentState) :
    (ofStates csv segwit).contains (ruleOf .csv) = (csv == .active) := by
  cases csv <;> cases segwit <;> rfl

theorem contains_ofStates_segwit (csv segwit : DeploymentState) :
    (ofStates csv segwit).contains (ruleOf .segwit) = (segwit == .active) := by
  cases csv <;> cases segwit <;> rfl

end ScriptFlags

namespace DeploymentCache

variable {params : Params} {deployment : Deployment} {cache other : DeploymentCache} {id : DeploymentId}

private theorem get?_insert_of_ne (different : deployment.id ≠ id) (boundary wanted : Option HeaderChain)
    (state : DeploymentState) : (cache.insert deployment.id boundary state).get? id wanted = cache.get? id wanted := by
  rw [get?_insert, if_neg fun both => different both.1]

/-- Everything that is kept on the way stands under the deployment that is asked about. -/
theorem get?_resolve_of_ne (different : deployment.id ≠ id) (boundary wanted : Option HeaderChain) :
    (resolve params deployment boundary cache).2.get? id wanted = cache.get? id wanted := by
  induction boundary using Params.boundary_induction params with
  | first =>
    cases held : cache.get? deployment.id none with
    | some state => rw [resolve_of_get? held]
    | none => rw [resolve_none held, get?_insert_of_ne different]
  | later boundary ih =>
    cases held : cache.get? deployment.id (some boundary) with
    | some state => rw [resolve_of_get? held]
    | none =>
      by_cases begun : deployment.start.reached boundary
      · rw [resolve_of_reached held begun]
        simp only [get?_insert_of_ne different, ih]
      · rw [resolve_of_not_reached held begun, get?_insert_of_ne different]

theorem resolve_fst_congr (same : ∀ wanted, cache.get? deployment.id wanted = other.get? deployment.id wanted)
    (boundary : Option HeaderChain) :
    (resolve params deployment boundary cache).1 = (resolve params deployment boundary other).1 := by
  induction boundary using Params.boundary_induction params with
  | first =>
    cases held : cache.get? deployment.id none with
    | some state => rw [resolve_of_get? held, resolve_of_get? ((same none).symm.trans held)]
    | none => rw [resolve_none held, resolve_none ((same none).symm.trans held)]
  | later boundary ih =>
    have there := same (some boundary)
    cases held : cache.get? deployment.id (some boundary) with
    | some state => rw [resolve_of_get? held, resolve_of_get? (there.symm.trans held)]
    | none =>
      have absent := there.symm.trans held
      by_cases begun : deployment.start.reached boundary
      · rw [resolve_of_reached held begun, resolve_of_reached absent begun]
        simp only [ih]
      · rw [resolve_of_not_reached held begun, resolve_of_not_reached absent begun]

theorem get?_state_of_ne {asked : DeploymentId} (different : asked ≠ id) (previous wanted : Option HeaderChain) :
    (state params previous asked cache).2.get? id wanted = cache.get? id wanted := by
  unfold state
  cases listed : params.deployment? asked with
  | none => rfl
  | some deployment =>
    have named := Params.id_of_deployment? listed
    by_cases always : deployment.start = .always
    · simp only [if_pos always]
    · simp only [if_neg always]
      exact get?_resolve_of_ne (named ▸ different) _ wanted

theorem state_fst_congr (previous : Option HeaderChain)
    (same : ∀ wanted, cache.get? id wanted = other.get? id wanted) :
    (state params previous id cache).1 = (state params previous id other).1 := by
  unfold state
  cases listed : params.deployment? id with
  | none => rfl
  | some deployment =>
    have named := Params.id_of_deployment? listed
    by_cases always : deployment.start = .always
    · simp only [if_pos always]
    · simp only [if_neg always]
      exact resolve_fst_congr (named ▸ same) _

/-- The flags after other questions. -/
def flagsAfter (params : Params) (asked : List Query) (previous : Option HeaderChain) : ScriptFlags :=
  (ScriptFlags.enforced params previous (askAll params asked {}).2).1

/-- Whether blocks may carry witnesses, asked after other questions. -/
def witnessAfter (params : Params) (asked : List Query) (previous : Option HeaderChain) : Bool :=
  (witnessEnabled params previous (askAll params asked {}).2).1

theorem witnessAfter_eq (params : Params) (asked : List Query) (previous : Option HeaderChain) :
    witnessAfter params asked previous = (answerAfter params asked (previous, .segwit) == .active) := rfl

theorem flagsAfter_eq (params : Params) (asked : List Query) (previous : Option HeaderChain) :
    flagsAfter params asked previous =
      .ofStates (answerAfter params asked (previous, .csv)) (answerAfter params asked (previous, .segwit)) := by
  have unmoved : (state params previous .segwit (state params previous .csv (askAll params asked {}).2).2).1 =
      (state params previous .segwit (askAll params asked {}).2).1 := by
    refine state_fst_congr previous fun wanted => ?_
    exact get?_state_of_ne (by decide) previous wanted
  have run : flagsAfter params asked previous = .ofStates (answerAfter params asked (previous, .csv))
      (state params previous .segwit (state params previous .csv (askAll params asked {}).2).2).1 := rfl
  rw [run, unmoved, answerAfter, answerAfter]

/-- A deployment's rule is in force exactly where the deployment is active. -/
theorem contains_flagsAfter (params : Params) (asked : List Query) (previous : Option HeaderChain)
    (id : DeploymentId) :
    (flagsAfter params asked previous).contains (ScriptFlags.ruleOf id) =
      (id == .testDummy || answerAfter params asked (previous, id) == .active) := by
  rw [flagsAfter_eq]
  cases id with
  | testDummy => simp [ScriptFlags.ruleOf, ScriptFlags.contains]
  | csv => exact ScriptFlags.contains_ofStates_csv _ _
  | segwit => exact ScriptFlags.contains_ofStates_segwit _ _

end DeploymentCache
end Mintage
