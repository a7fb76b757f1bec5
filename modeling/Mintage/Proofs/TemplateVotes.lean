import Mintage.Node.Mining
import Mintage.Proofs.TemplateShape
import Mintage.Proofs.VersionVotes

/-! What a template votes for. Only the mining templates of a hybrid chain vote, and they vote for just the deployments
that the cache calls started or locked in. The version of all others is no vote for any deployment. -/

namespace Mintage
open Sequencing

theorem DeploymentState.isSignalling_iff {state : DeploymentState} :
    state.isSignalling = true ↔ state = .started ∨ state = .lockedIn := by
  simp [isSignalling]

theorem signals_plainVersion (mask : UInt32) : signals Assembly.plainVersion mask = false :=
  rfl

namespace Params

variable {params : Params}

/-- Headers whose version is no vote may as well not be there. -/
theorem votes_eq_countP_filter {version : Int32} (silent : ∀ mask, signals version mask = false)
    (deployment : Deployment) (boundary : HeaderChain) :
    params.votes deployment boundary =
      ((boundary.back params.windowSize).filter fun node => node.header.version != version).countP fun node =>
        signals node.header.version deployment.mask := by
  rw [votes, List.countP_filter]
  apply List.countP_congr
  intro node _
  rw [Bool.and_eq_true, bne_iff_ne]
  constructor
  · intro vote
    refine ⟨vote, ?_⟩
    intro same
    rw [same, silent] at vote
    cases vote
  · intro both
    exact both.1

end Params

/-- On a hybrid chain templates vote if they are asked for, and not for staking. -/
def MinerPolicy.Votes (policy : MinerPolicy) (options : Option TemplateOptions) : Prop :=
  policy.mode = .hybrid ∧ ∃ chosen ∈ options, chosen.proofOfStake = false

namespace Assembly

variable {assembly : Assembly}

theorem version_of_votes (voting : assembly.policy.Votes assembly.options) :
    assembly.version = DeploymentCache.blockVersion assembly.params (some assembly.tip) := by
  obtain ⟨mode, chosen, given, mining⟩ := voting
  rw [version, mode, Option.mem_def.mp given]
  exact if_neg (mining ▸ Bool.false_ne_true)

theorem version_of_not_votes (silent : ¬ assembly.policy.Votes assembly.options) :
    assembly.version = pure plainVersion := by
  unfold version
  split
  next chosen mode given =>
    by_cases staking : chosen.proofOfStake = true
    · exact if_pos staking
    · exact absurd ⟨mode, chosen, given, Bool.eq_false_iff.mpr staking⟩ silent
  next => rfl

theorem state_fst_after_version (assembly : Assembly) (cache : DeploymentCache) (id : DeploymentId) :
    (DeploymentCache.state assembly.params (some assembly.tip) id (assembly.version cache).2).1 =
      (DeploymentCache.state assembly.params (some assembly.tip) id cache).1 := by
  by_cases voting : assembly.policy.Votes assembly.options
  · rw [version_of_votes voting]
    exact DeploymentCache.state_fst_after_blockVersion _ id
  · rw [version_of_not_votes voting]
    rfl

theorem signals_version_iff (apart : assembly.params.BitsApart) {deployment : Deployment}
    (member : deployment ∈ assembly.params.deployments) (cache : DeploymentCache) :
    signals (assembly.version cache).1 deployment.mask = true ↔
      assembly.policy.Votes assembly.options ∧
        (DeploymentCache.state assembly.params (some assembly.tip) deployment.id cache).1.isSignalling = true := by
  by_cases voting : assembly.policy.Votes assembly.options
  · rw [version_of_votes voting, DeploymentCache.signals_blockVersion apart member]
    simp only [voting, true_and]
  · have plain : (assembly.version cache).1 = plainVersion := by
      rw [version_of_not_votes voting]
      rfl
    rw [plain, signals_plainVersion]
    simp only [voting, false_and, Bool.false_eq_true]

theorem version_of_build {version : Int32} {candidates : List MempoolEntry} {payout : Script} {built : BlockTemplate}
    (done : assembly.build version candidates payout = .ok built) : built.block.header.version = version := by
  obtain ⟨_, _, rfl, _, _⟩ := build_eq_ok_iff.mp done
  rfl

end Assembly

namespace Node

variable {config : NodeConfig} {tip : HeaderChain} {payout : Script} {options : Option TemplateOptions}
  {node after : Node} {built : BlockTemplate}

private theorem run_query_eq_ok {ε α : Type} {run : StateM DeploymentCache α} {value : α} :
    (modifyGet (query run) : EStateM ε Node α) node = .ok value after ↔
      value = (run node.cache).1 ∧ after = { node with cache := (run node.cache).2 } := by
  have asked : (modifyGet (query run) : EStateM ε Node α) node =
    .ok (run node.cache).1 { node with cache := (run node.cache).2 } := rfl
  rw [asked, EStateM.Result.ok.injEq, eq_comm, eq_comm (a := after)]

/-- The template that a node returns is the one of its assembly. The cache is asked about witnesses first and about the
version then. -/
theorem template_eq_ok_iff :
    template config tip payout options node = .ok built after ↔
      ∃ candidates, node.candidates = .ok candidates ∧
        let witness := DeploymentCache.witnessEnabled config.params (some tip) node.cache
        let drafted := assembly config node tip options witness.1
        let version := drafted.version witness.2
        drafted.build version.1 candidates payout = .ok built ∧
          after = { node with cache := version.2, metrics := node.metrics.recordTemplate built } := by
  simp only [template, run_bind_eq_ok, run_query_eq_ok, run_get_eq_ok, run_ofExcept_eq_ok, mapError_eq_ok,
    run_modify_eq_ok, run_pure_eq_ok]
  constructor
  · rintro ⟨_, _, ⟨rfl, rfl⟩, _, _, ⟨rfl, rfl⟩, candidates, _, ⟨listed, rfl⟩, _, _, ⟨rfl, rfl⟩, _, _, ⟨done, rfl⟩,
      _, _, rfl, rfl, rfl⟩
    exact ⟨candidates, listed, done, rfl⟩
  · rintro ⟨candidates, listed, done, rfl⟩
    exact ⟨_, _, ⟨rfl, rfl⟩, _, _, ⟨rfl, rfl⟩, candidates, _, ⟨listed, rfl⟩, _, _, ⟨rfl, rfl⟩, built, _, ⟨done, rfl⟩,
      ⟨⟩, _, rfl, rfl, rfl⟩

/-- A template votes for a deployment exactly if it is one that votes and the deployment is started or locked in on its
tip; building it changes no answer. The headers of templates that do not vote count for nothing in any window. -/
theorem template_votes_iff (apart : config.params.BitsApart)
    (done : template config tip payout options node = .ok built after) :
    (∀ deployment ∈ config.params.deployments,
      signals built.block.header.version deployment.mask = true ↔
        config.policy.Votes options ∧
          ((DeploymentCache.state config.params (some tip) deployment.id node.cache).1 = .started ∨
            (DeploymentCache.state config.params (some tip) deployment.id node.cache).1 = .lockedIn)) ∧
    (∀ id, (DeploymentCache.state config.params (some tip) id after.cache).1 =
      (DeploymentCache.state config.params (some tip) id node.cache).1) ∧
    (¬ config.policy.Votes options → ∀ deployment boundary,
      config.params.votes deployment boundary =
        ((boundary.back config.params.windowSize).filter fun counted =>
          counted.header.version != built.block.header.version).countP fun counted =>
            signals counted.header.version deployment.mask) := by
  obtain ⟨candidates, -, assembled, rfl⟩ := template_eq_ok_iff.mp done
  have unmoved (id : DeploymentId) :
      (DeploymentCache.state config.params (some tip) id
        (DeploymentCache.witnessEnabled config.params (some tip) node.cache).2).1 =
        (DeploymentCache.state config.params (some tip) id node.cache).1 :=
    DeploymentCache.state_fst_after_state (some tip) .segwit id
  rw [Assembly.version_of_build assembled]
  refine ⟨?_, ?_, ?_⟩
  · intro deployment member
    rw [Assembly.signals_version_iff apart member]
    change config.policy.Votes options ∧
      (DeploymentCache.state config.params (some tip) deployment.id _).1.isSignalling = true ↔ _
    rw [unmoved, DeploymentState.isSignalling_iff]
  · intro id
    rw [← unmoved]
    exact Assembly.state_fst_after_version (assembly config node tip options _) _ id
  · intro silent deployment boundary
    rw [Assembly.version_of_not_votes silent]
    exact Params.votes_eq_countP_filter signals_plainVersion deployment boundary

end Node

namespace Fork

def config : NodeConfig where
  params
  policy := {}
  payout := none
  powBits := 0x1d00ffff
  posBits := 0x1d00ffff
  validator := .accept
  wallets := []
  draw := fun _ => 0

theorem template_votes :
    params.BitsApart ∧ ∃ built after, Node.template config base [0x51] (some {}) (.start 100 (some {})) = .ok built after ∧
      signals built.block.header.version 2 = true := by
  have apart : params.BitsApart := ⟨by decide, by decide, by decide⟩
  obtain ⟨built, after, done⟩ : ∃ built after,
      Node.template config base [0x51] (some {}) (.start 100 (some {})) = .ok built after := by
    have staked : MiningMode.hybrid ≠ .proofOfWork := by decide
    exact ⟨_, _, Node.template_eq_ok_iff.mpr ⟨[], rfl,
      Assembly.build_eq_ok_iff.mpr ⟨0x1d00ffff, rfl, rfl, fun checked => absurd checked staked, rfl⟩, rfl⟩⟩
  have started : (DeploymentCache.state params (some base) .segwit {}).1 = .started := by
    have below : ∀ node ∈ some base, node.ancestors ⊆ base.ancestors := by simp
    rw [DeploymentCache.faithful_empty.state_fst .segwit below]
    decide +kernel
  refine ⟨apart, built, after, done, ?_⟩
  have votes := (Node.template_votes_iff apart done).1 ⟨.segwit, 1, .height 0, .never⟩ (by decide)
  exact votes.mpr ⟨⟨rfl, {}, rfl, rfl⟩, .inl started⟩

end Fork
end Mintage
