import Mintage.Deployment

/-! The consensus parameters of a network, and the three networks that are built in. -/

namespace Mintage

structure Params where
  network : String
  /-- Blocks between halvings of the reward. -/
  halvingInterval : Nat
  reward : Amount
  /-- Blocks before an output of a coinbase or coinstake may be spent. -/
  maturity : Nat
  /-- Blocks in one voting window. -/
  window : Nat
  /-- Votes in one window that lock a deployment in. -/
  threshold : Nat
  powLimit : Nat
  powLimit_lt : powLimit < targetBound := by decide
  /-- Seconds in one retarget period. -/
  timespan : UInt64
  /-- Seconds between blocks. -/
  spacing : UInt64
  noRetargeting : Bool
  allowMinDifficulty : Bool
  lastPowHeight : Nat
  deployments : List Deployment

namespace Params

/-- Blocks in one retarget period. -/
def interval (params : Params) : UInt64 :=
  params.timespan / max params.spacing 1

def deployment? (params : Params) (id : DeploymentId) : Option Deployment :=
  params.deployments.find? (·.id == id)

/-- The mask of a deployment, zero when the table has none. -/
def mask (params : Params) (id : DeploymentId) : UInt32 :=
  (params.deployment? id).elim 0 Deployment.mask

def main : Params where
  network := "main"
  halvingInterval := 210000
  reward := 50 * Amount.coin
  maturity := 50
  window := 720
  threshold := 684
  powLimit := 1 <<< 232 - 1
  timespan := 600
  spacing := 120
  noRetargeting := false
  allowMinDifficulty := false
  lastPowHeight := 788400
  deployments := [
    ⟨.testDummy, 28, .medianTime 1199145601, .medianTime 1230767999⟩,
    ⟨.csv, 0, .medianTime 1462060800, .medianTime 1493596800⟩,
    ⟨.segwit, 1, .medianTime 1479168000, .medianTime 1510704000⟩]

def test : Params :=
  { main with network := "test", powLimit := 1 <<< 236 - 1, powLimit_lt := by decide }

/-- Short windows and almost no work, for trying things out. -/
def regtest : Params :=
  { main with
    network := "regtest"
    halvingInterval := 150
    maturity := 10
    window := 144
    threshold := 108
    powLimit := 1 <<< 255 - 1
    powLimit_lt := by decide
    noRetargeting := true
    allowMinDifficulty := true
    deployments := [
      ⟨.testDummy, 28, .height 0, .never⟩,
      ⟨.csv, 0, .always, .never⟩,
      ⟨.segwit, 1, .always, .never⟩] }

end Params
end Mintage
