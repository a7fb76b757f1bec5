import Mintage.Hex
import Mintage.Json
import Mintage.Params

/-! Consensus parameters as JSON records. -/

namespace Mintage

namespace Milestone

def toJson : Milestone → Json
  | always => .text "always"
  | never => .text "never"
  | height value => .object [("height", .int value)]
  | medianTime value => .object [("median_time", .int value)]

def ofJson? (json : Json) : Option Milestone :=
  match json with
  | .object [("height", value)] => (value.natBelow? UInt32.size).map height
  | .object [("median_time", value)] => (value.natBelow? UInt32.size).map medianTime
  | _ =>
    match json.unit? with
    | some "always" => some always
    | some "never" => some never
    | _ => none

end Milestone

def DeploymentId.ofJson? (json : Json) : Option DeploymentId := do
  ofName? (← json.unit?)

namespace Deployment

def toJson (deployment : Deployment) : Json :=
  .object [
    ("id", .text deployment.id.name), ("bit", .int deployment.bit.toNat),
    ("start", deployment.start.toJson), ("timeout", deployment.timeout.toJson)]

def ofJson? (json : Json) : Option Deployment := do
  let field ← json.record? ["id", "bit", "start", "timeout"]
  return {
    id := ← DeploymentId.ofJson? (← field "id")
    bit := ← (← field "bit").uint8?
    start := ← Milestone.ofJson? (← field "start")
    timeout := ← Milestone.ofJson? (← field "timeout") }

end Deployment

namespace Params

def toJson (params : Params) : Json :=
  .object [
    ("network", .text params.network),
    ("subsidy_halving_interval", .int params.halvingInterval),
    ("proof_of_work_reward", .int params.reward.toInt),
    ("coinbase_maturity", .int params.maturity),
    ("miner_confirmation_window", .int params.window),
    ("rule_change_activation_threshold", .int params.threshold),
    ("pow_limit", .text ("0x" ++ Hex.ofNat params.powLimit)),
    ("pow_target_timespan", .int params.timespan.toNat),
    ("pow_target_spacing", .int params.spacing.toNat),
    ("pow_no_retargeting", .bool params.noRetargeting),
    ("pow_allow_min_difficulty_blocks", .bool params.allowMinDifficulty),
    ("last_pow_block", .int params.lastPowHeight),
    ("deployments", .object [("deployments", .array (params.deployments.map Deployment.toJson))])]

def deploymentTable? (json : Json) : Option (List Deployment) := do
  let field ← json.record? ["deployments"]
  Json.list? Deployment.ofJson? (← field "deployments")

/-- These parameters with the fields of an object in place of their own. -/
def override? (params : Params) (json : Json) : Option Params := do
  let natural := fun name default => Json.orElse (json.field? name) default (Json.natBelow? UInt32.size)
  let word := fun name default => Json.orElse (json.field? name) default Json.uint64?
  let flag := fun name default => Json.orElse (json.field? name) default Json.bool?
  let limit ← Json.orElse (json.field? "pow_limit") params.powLimit fun value => value.text?.bind Hex.quantity?
  if bounded : limit < targetBound then
    return {
      network := ← Json.orElse (json.field? "network") params.network Json.text?
      halvingInterval := ← natural "subsidy_halving_interval" params.halvingInterval
      reward := ← Json.orElse (json.field? "proof_of_work_reward") params.reward Json.int64?
      maturity := ← natural "coinbase_maturity" params.maturity
      window := ← natural "miner_confirmation_window" params.window
      threshold := ← natural "rule_change_activation_threshold" params.threshold
      powLimit := limit
      powLimit_lt := bounded
      timespan := ← word "pow_target_timespan" params.timespan
      spacing := ← word "pow_target_spacing" params.spacing
      noRetargeting := ← flag "pow_no_retargeting" params.noRetargeting
      allowMinDifficulty := ← flag "pow_allow_min_difficulty_blocks" params.allowMinDifficulty
      lastPowHeight := ← natural "last_pow_block" params.lastPowHeight
      deployments := ← Json.orElse (json.field? "deployments") params.deployments deploymentTable? }
  else none

/-- The built-in network of that name. -/
def named? : String → Option Params
  | "main" => some main
  | "test" => some test
  | "regtest" => some regtest
  | _ => none

end Params
end Mintage
