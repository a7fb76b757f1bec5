import Mintage.Proofs.EnforcedRules

/-! What a block version votes for. A version is put together from the masks of deployments, and its votes are read
off with masks again. In a table whose bits are apart it votes for a deployment exactly if the state asks for it. -/

namespace Mintage

/-- Every deployment has a name and a version bit of its own, below the bits that mark a version with votes. -/
structure Params.BitsApart (params : Params) : Prop where
  ids : (params.deployments.map Deployment.id).Nodup
  bits : (params.deployments.map Deployment.bit).Nodup
  low : ∀ deployment ∈ params.deployments, deployment.bit ≤ 28

namespace Deployment

variable {deployment : Deployment}

private theorem bit_lt (low : deployment.bit ≤ 28) : deployment.bit.toNat < 29 :=
  Nat.lt_succ_of_le (UInt8.le_iff_toNat_le.mp low)

theorem toBitVec_mask (low : deployment.bit ≤ 28) :
    deployment.mask.toBitVec = BitVec.twoPow 32 deployment.bit.toNat := by
  have small := bit_lt low
  have count : (deployment.bit.toUInt32.toBitVec % 32).toNat = deployment.bit.toNat := by
    rw [BitVec.toNat_umod, UInt32.toNat_toBitVec, UInt8.toNat_toUInt32]
    exact Nat.mod_eq_of_lt (Nat.lt_trans small (by decide))
  rw [mask, UInt32.toBitVec_shiftLeft, BitVec.shiftLeft_eq', BitVec.shiftLeft_eq_mul_twoPow, count]
  exact BitVec.one_mul _

/-- Whether a word has the bit of a deployment. -/
def isSet (deployment : Deployment) (word : UInt32) : Bool :=
  word.toBitVec.getLsbD deployment.bit.toNat

theorem isSet_or (left right : UInt32) :
    deployment.isSet (left ||| right) = (deployment.isSet left || deployment.isSet right) := by
  rw [isSet, UInt32.toBitVec_or, BitVec.getLsbD_or, isSet, isSet]

theorem isSet_mask {other : Deployment} (low : other.bit ≤ 28) :
    deployment.isSet other.mask = (deployment.bit == other.bit) := by
  have small : other.bit.toNat < 32 := Nat.lt_trans (bit_lt low) (by decide)
  rw [isSet, toBitVec_mask low, BitVec.getLsbD_twoPow, decide_eq_true small, Bool.true_and, Bool.eq_iff_iff,
    decide_eq_true_eq, UInt8.toNat_inj, beq_iff_eq]
  exact eq_comm

theorem and_mask_eq_zero_iff (low : deployment.bit ≤ 28) (word : UInt32) :
    word &&& deployment.mask = 0 ↔ deployment.isSet word = false := by
  have own : deployment.isSet deployment.mask = true := by rw [isSet_mask low, beq_self_eq_true]
  rw [isSet, toBitVec_mask low] at own
  rw [← UInt32.toBitVec_inj, UInt32.toBitVec_and, toBitVec_mask low, BitVec.and_twoPow, isSet]
  cases word.toBitVec.getLsbD deployment.bit.toNat with
  | false => simp
  | true =>
    simp only [if_true, Bool.true_eq_false, iff_false]
    intro zero
    rw [zero] at own
    simp at own

theorem isSet_voteTop (low : deployment.bit ≤ 28) : deployment.isSet voteTop = false := by
  have small := bit_lt low
  have top : voteTop.toBitVec = BitVec.twoPow 32 29 := rfl
  rw [isSet, top, BitVec.getLsbD_twoPow]
  simp only [Bool.and_eq_false_iff, decide_eq_false_iff_not]
  omega

theorem mask_and_top (low : deployment.bit ≤ 28) : deployment.mask &&& 0xe0000000 = 0 := by
  have all : ∀ bit < 29, BitVec.twoPow 32 bit &&& 0xe0000000#32 = 0#32 := by decide
  rw [← UInt32.toBitVec_inj, UInt32.toBitVec_and, toBitVec_mask low]
  exact all _ (bit_lt low)

end Deployment

private theorem or_and (left right top : UInt32) : (left ||| right) &&& top = left &&& top ||| right &&& top := by
  rw [← UInt32.toBitVec_inj]
  simp only [UInt32.toBitVec_and, UInt32.toBitVec_or]
  ext i
  simp only [BitVec.getElem_and, BitVec.getElem_or, Bool.and_or_distrib_right]

theorem signals_toInt32 {deployment : Deployment} (low : deployment.bit ≤ 28) (word : UInt32) :
    signals word.toInt32 deployment.mask = (word &&& 0xe0000000 == voteTop && deployment.isSet word) := by
  have bit : (word &&& deployment.mask != 0) = deployment.isSet word := by
    have unset := Deployment.and_mask_eq_zero_iff low word
    rw [Bool.eq_iff_iff, bne_iff_ne, ne_eq, unset, Bool.not_eq_false]
  simp only [signals, UInt32.toUInt32_toInt32, bit]

section Fold

variable {voting : List Deployment} (low : ∀ deployment ∈ voting, deployment.bit ≤ 28)
include low

theorem foldl_mask_and_top (word : UInt32) :
    voting.foldl (fun word deployment => word ||| deployment.mask) word &&& 0xe0000000 = word &&& 0xe0000000 := by
  induction voting generalizing word with
  | nil => rfl
  | cons first rest ih =>
    obtain ⟨lowFirst, lowRest⟩ := List.forall_mem_cons.mp low
    rw [List.foldl_cons, ih lowRest, or_and, Deployment.mask_and_top lowFirst, UInt32.or_zero]

theorem isSet_foldl_mask (deployment : Deployment) (word : UInt32) :
    deployment.isSet (voting.foldl (fun word deployment => word ||| deployment.mask) word) =
      (deployment.isSet word || voting.any fun other => deployment.bit == other.bit) := by
  induction voting generalizing word with
  | nil => rw [List.foldl_nil, List.any_nil, Bool.or_false]
  | cons first rest ih =>
    obtain ⟨lowFirst, lowRest⟩ := List.forall_mem_cons.mp low
    rw [List.foldl_cons, ih lowRest, Deployment.isSet_or, Deployment.isSet_mask lowFirst, List.any_cons, Bool.or_assoc]

end Fold

namespace Params

variable {params : Params} {deployment : Deployment}

theorem BitsApart.deployment?_of_mem (apart : params.BitsApart) (member : deployment ∈ params.deployments) :
    params.deployment? deployment.id = some deployment := by
  cases found : params.deployment? deployment.id with
  | none =>
    have absent := List.find?_eq_none.mp found deployment member
    simp at absent
  | some other =>
    have named := id_of_deployment? found
    rw [List.inj_on_of_nodup_map apart.ids (List.mem_of_find?_eq_some found) member named]

theorem BitsApart.voteVersion_map (apart : params.BitsApart) (stateOf : DeploymentId → DeploymentState) :
    voteVersion params (params.deployments.map fun deployment => (deployment.id, stateOf deployment.id)) =
      ((params.deployments.filter fun deployment => (stateOf deployment.id).isSignalling).foldl
        (fun word deployment => word ||| deployment.mask) voteTop).toInt32 := by
  rw [voteVersion, List.filter_map, List.foldl_map]
  congr 1
  apply List.foldl_ext
  intro word deployment member
  rw [mask, apart.deployment?_of_mem (List.mem_of_mem_filter member), Option.elim_some]

theorem BitsApart.signals_voteVersion (apart : params.BitsApart) (member : deployment ∈ params.deployments)
    (stateOf : DeploymentId → DeploymentState) :
    signals (voteVersion params (params.deployments.map fun other => (other.id, stateOf other.id))) deployment.mask =
      (stateOf deployment.id).isSignalling := by
  have low : ∀ other ∈ params.deployments.filter (fun other => (stateOf other.id).isSignalling), other.bit ≤ 28 :=
    fun other voting => apart.low other (List.mem_of_mem_filter voting)
  have marked : voteTop &&& 0xe0000000 = voteTop := rfl
  -- No mask touches the mark, and of the masks only the deployment's own has its bit.
  rw [apart.voteVersion_map, signals_toInt32 (apart.low _ member), foldl_mask_and_top low, isSet_foldl_mask low,
    Deployment.isSet_voteTop (apart.low _ member), marked, beq_self_eq_true, Bool.true_and, Bool.false_or,
    List.any_filter, Bool.eq_iff_iff, List.any_eq_true]
  constructor
  · intro ⟨other, otherMember, both⟩
    rw [Bool.and_eq_true, beq_iff_eq] at both
    rw [List.inj_on_of_nodup_map apart.bits member otherMember both.2]
    exact both.1
  · intro voting
    exact ⟨deployment, member, by rw [voting, beq_self_eq_true, Bool.and_self]⟩

end Params

namespace DeploymentCache

variable {params : Params} {deployment : Deployment} {cache : DeploymentCache}

theorem get?_resolve_self (boundary : Option HeaderChain) :
    (resolve params deployment boundary cache).2.get? deployment.id boundary =
      some (resolve params deployment boundary cache).1 := by
  have kept (cache : DeploymentCache) (state : DeploymentState) :
      (cache.insert deployment.id boundary state).get? deployment.id boundary = some state := by
    rw [get?_insert, if_pos ⟨rfl, rfl⟩]
  cases held : cache.get? deployment.id boundary with
  | some state => rw [resolve_of_get? held, held]
  | none =>
    cases boundary with
    | none => rw [resolve_none held, kept]
    | some boundary =>
      by_cases begun : deployment.start.reached boundary
      · rw [resolve_of_reached held begun, kept]
      · rw [resolve_of_not_reached held begun, kept]

/-- A question on top of a header does not change the answers to others on top of it. -/
theorem state_fst_after_state (previous : Option HeaderChain) (asked id : DeploymentId) :
    (state params previous id (state params previous asked cache).2).1 = (state params previous id cache).1 := by
  by_cases same : asked = id
  · cases same
    unfold state
    cases listed : params.deployment? asked with
    | none => rfl
    | some deployment =>
      have named := Params.id_of_deployment? listed
      cases named
      by_cases always : deployment.start = .always
      · simp only [if_pos always]
      · simp only [if_neg always]
        rw [resolve_of_get? (get?_resolve_self _)]
  · exact state_fst_congr previous (get?_state_of_ne same previous)

private theorem mapM_state (previous : Option HeaderChain) (table : List Deployment) :
    let run := table.mapM (m := StateM DeploymentCache) (fun deployment => do
      return (deployment.id, ← state params previous deployment.id)) cache
    run.1 = table.map (fun deployment => (deployment.id, (state params previous deployment.id cache).1)) ∧
      ∀ id, (state params previous id run.2).1 = (state params previous id cache).1 := by
  induction table generalizing cache with
  | nil => exact ⟨rfl, fun _ => rfl⟩
  | cons first rest ih =>
    obtain ⟨answers, unmoved⟩ := @ih (state params previous first.id cache).2
    simp only [state_fst_after_state] at answers unmoved
    rw [List.mapM_cons, List.map_cons]
    exact ⟨congrArg (List.cons _) answers, unmoved⟩

theorem states_fst (params : Params) (previous : Option HeaderChain) (cache : DeploymentCache) :
    (states params previous cache).1 =
      params.deployments.map fun deployment => (deployment.id, (state params previous deployment.id cache).1) :=
  (mapM_state previous params.deployments).1

theorem state_fst_after_blockVersion (previous : Option HeaderChain) (id : DeploymentId) :
    (state params previous id (blockVersion params previous cache).2).1 = (state params previous id cache).1 :=
  (mapM_state previous params.deployments).2 id

theorem signals_blockVersion (apart : params.BitsApart) (member : deployment ∈ params.deployments)
    (previous : Option HeaderChain) (cache : DeploymentCache) :
    signals (blockVersion params previous cache).1 deployment.mask =
      (state params previous deployment.id cache).1.isSignalling := by
  have run : (blockVersion params previous cache).1 = voteVersion params (states params previous cache).1 := rfl
  rw [run, states_fst]
  exact apart.signals_voteVersion member fun id => (state params previous id cache).1

end DeploymentCache
end Mintage
