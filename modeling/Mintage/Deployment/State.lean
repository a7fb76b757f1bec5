import Mintage.Params

/-! The life of a deployment. Its state changes only where a voting window ends, and is a function of
the last header of the window before. -/

namespace Mintage

inductive DeploymentState where
  | defined
  | started
  | lockedIn
  | active
  | failed
deriving DecidableEq, Repr

namespace DeploymentState

def name : DeploymentState → String
  | defined => "defined"
  | started => "started"
  | lockedIn => "locked_in"
  | active => "active"
  | failed => "failed"

def isTerminal (state : DeploymentState) : Bool :=
  state == active || state == failed

/-- Whether miners should vote in this state. -/
def isSignalling (state : DeploymentState) : Bool :=
  state == started || state == lockedIn

end DeploymentState

/-- The leading bits of a version that carries votes. -/
def voteTop : UInt32 := 0x20000000

/-- Whether a version votes for the deployments in `mask`. -/
def signals (version : Int32) (mask : UInt32) : Bool :=
  let word := version.toUInt32
  word &&& 0xe0000000 == voteTop && word &&& mask != 0

/-- The version that votes for every deployment whose state asks for it. -/
def voteVersion (params : Params) (states : List (DeploymentId × DeploymentState)) : Int32 :=
  let voting := states.filter (·.2.isSignalling)
  (voting.foldl (fun word entry => word ||| params.mask entry.1) voteTop).toInt32

namespace Params

/-- A window has at least one block. -/
def windowSize (params : Params) : Nat :=
  max params.window 1

/-- The last header of the window before the block on top of `previous`. -/
def boundary? (params : Params) (previous : HeaderChain) : Option HeaderChain :=
  let past := (previous.height + 1) % params.windowSize
  if past ≤ previous.height then previous.ancestor? (previous.height - past) else none

/-- The boundary one window earlier. -/
def earlier? (params : Params) (boundary : HeaderChain) : Option HeaderChain :=
  if params.windowSize ≤ boundary.height then boundary.ancestor? (boundary.height - params.windowSize) else none

theorem height_of_earlier? {params : Params} {boundary before : HeaderChain}
    (step : params.earlier? boundary = some before) : before.height < boundary.height := by
  unfold earlier? at step
  split at step
  · have landed := HeaderChain.height_of_ancestor? step
    have positive : 1 ≤ params.windowSize := Nat.le_max_right ..
    omega
  · cases step

/-- The votes among the headers of the window that ends at `boundary`. -/
def votes (params : Params) (deployment : Deployment) (boundary : HeaderChain) : Nat :=
  (boundary.back params.windowSize).countP fun node => signals node.header.version deployment.mask

/-- The state after the window that ends at `boundary`, given the state during it. -/
def nextState (params : Params) (deployment : Deployment) (boundary : HeaderChain) :
    DeploymentState → DeploymentState
  | .defined =>
    if deployment.timeout.reached boundary then .failed
    else if deployment.start.reached boundary then .started
    else .defined
  | .started =>
    if params.threshold ≤ params.votes deployment boundary then .lockedIn
    else if deployment.timeout.reached boundary then .failed
    else .started
  | .lockedIn => .active
  | state => state

/-- The state after the window that ends at `boundary`: where the start is not reached, a deployment is
defined, whatever it was before. -/
def stateAfter (params : Params) (deployment : Deployment) : (boundary : Option HeaderChain) → DeploymentState
  | none => .defined
  | some boundary =>
    if deployment.start.reached boundary then
      match step : params.earlier? boundary with
      | none => params.nextState deployment boundary .defined
      | some before =>
        have := height_of_earlier? step
        params.nextState deployment boundary (stateAfter params deployment (some before))
    else .defined
termination_by boundary => boundary.elim 0 fun node => node.height + 1

/-- The state of a deployment for the block on top of `previous`. -/
def stateAt (params : Params) (previous : Option HeaderChain) (id : DeploymentId) : DeploymentState :=
  match params.deployment? id with
  | none => .defined
  | some deployment =>
    if deployment.start = .always then .active
    else params.stateAfter deployment (previous.bind params.boundary?)

end Params
end Mintage
