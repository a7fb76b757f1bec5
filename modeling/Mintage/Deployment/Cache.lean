import Std.Data.HashMap
import Mintage.Deployment.State

/-! Remembered deployment states. A state is kept under the deployment and the hash of the boundary
header that it belongs to, so that forks share what they have in common. -/

namespace Mintage

structure DeploymentCache where
  entries : Std.HashMap (DeploymentId × Option Hash256) DeploymentState := ∅

namespace DeploymentCache

def size (cache : DeploymentCache) : Nat :=
  cache.entries.size

def get? (cache : DeploymentCache) (id : DeploymentId) (boundary : Option HeaderChain) : Option DeploymentState :=
  cache.entries[(id, boundary.map HeaderChain.hash)]?

def insert (cache : DeploymentCache) (id : DeploymentId) (boundary : Option HeaderChain)
    (state : DeploymentState) : DeploymentCache :=
  { entries := cache.entries.insert (id, boundary.map HeaderChain.hash) state }

/-- Looks a state up, or finds and keeps it and every state it rests on. -/
def resolve (params : Params) (deployment : Deployment) :
    (boundary : Option HeaderChain) → DeploymentCache → DeploymentState × DeploymentCache
  | none, cache =>
    match cache.get? deployment.id none with
    | some state => (state, cache)
    | none => (.defined, cache.insert deployment.id none .defined)
  | some boundary, cache =>
    match cache.get? deployment.id (some boundary) with
    | some state => (state, cache)
    | none =>
      if deployment.start.reached boundary then
        let (before, cache) := match step : params.earlier? boundary with
          | none => resolve params deployment none cache
          | some before =>
            have := Params.height_of_earlier? step
            resolve params deployment (some before) cache
        let state := params.nextState deployment boundary before
        (state, cache.insert deployment.id (some boundary) state)
      else (.defined, cache.insert deployment.id (some boundary) .defined)
termination_by boundary => boundary.elim 0 fun node => node.height + 1

/-- The state of a deployment for the block on top of `previous`. Only what depends on the chain is
kept. -/
def state (params : Params) (previous : Option HeaderChain) (id : DeploymentId) :
    StateM DeploymentCache DeploymentState := fun cache =>
  match params.deployment? id with
  | none => (.defined, cache)
  | some deployment =>
    if deployment.start = .always then (.active, cache)
    else resolve params deployment (previous.bind params.boundary?) cache

/-- The states of all deployments in the table. -/
def states (params : Params) (previous : Option HeaderChain) :
    StateM DeploymentCache (List (DeploymentId × DeploymentState)) :=
  params.deployments.mapM fun deployment => do
    return (deployment.id, ← state params previous deployment.id)

/-- The version that votes in every deployment that is open for votes. -/
def blockVersion (params : Params) (previous : Option HeaderChain) : StateM DeploymentCache Int32 := do
  return voteVersion params (← states params previous)

def witnessEnabled (params : Params) (previous : Option HeaderChain) : StateM DeploymentCache Bool := do
  return (← state params previous .segwit) == .active

end DeploymentCache
end Mintage
