import Mintage.Json
import Mintage.Mining.Error
import Mintage.Script
import Mintage.Text.Blank
import Mintage.Text.Decimal
import Mintage.Wire.Error

/-! What a miner can set: which kind of chain blocks are built for, how large they may become and whom
they pay. -/

namespace Mintage

inductive MiningMode where
  | proofOfWork
  | proofOfStake
  | hybrid
deriving DecidableEq, Repr

namespace MiningMode

/-- Reads the name of a mode in any case, blanks around it ignored. -/
def ofText? (text : String) : Option MiningMode :=
  match Text.lower (Text.trim text) with
  | "pow" => some proofOfWork
  | "pos" => some proofOfStake
  | "hybrid" | "powpos" => some hybrid
  | _ => none

/-- Exactly the three plain names. -/
def ofJson? (json : Json) : Option MiningMode :=
  match json.unit? with
  | some "pow" => some proofOfWork
  | some "pos" => some proofOfStake
  | some "hybrid" => some hybrid
  | _ => none

end MiningMode

/-- The consensus limit on the weight of a block. -/
def maxBlockWeight : Nat := 4000000

/-- What is held back for the header and the coinbase. -/
def reservedWeight : Nat := 4000

def reservedSize : Nat := 1000

structure MinerPolicy where
  mode : MiningMode := .hybrid
  payoutHex : Option String := none
  maxWeight : Nat := maxBlockWeight
  maxSize : Nat := 1000000
  minFee : Amount := 0
  mineWitness : Bool := true
deriving DecidableEq, Repr

namespace MinerPolicy

/-- The configured payout script, if there is one. -/
def payoutScript (policy : MinerPolicy) : Except TemplateError (Option Script) :=
  match policy.payoutHex with
  | none => .ok none
  | some hex =>
    match Hex.decode hex with
    | .ok script => .ok (some script)
    | .error cause => .error (.invalidConfig ("mine_address_script: " ++ (DecodeError.invalidHex cause).message))

/-- Refuses a policy under which no valid block can be built. -/
def validate (policy : MinerPolicy) : Except TemplateError Unit := do
  if policy.maxWeight ≤ reservedWeight || policy.maxWeight > maxBlockWeight then
    throw (.invalidConfig s!"block_max_weight must be in ({reservedWeight}, {maxBlockWeight}]")
  if policy.maxSize ≤ reservedSize then
    throw (.invalidConfig s!"block_max_size must exceed {reservedSize}")
  if policy.minFee < 0 then
    throw (.invalidConfig "block_min_tx_fee cannot be negative")
  let _ ← policy.payoutScript

def fieldNames : List String := [
  "mining_mode", "mine_address_script", "block_max_weight", "block_max_size", "block_min_tx_fee",
  "mine_witness_tx"]

def ofJson? (json : Json) : Option MinerPolicy := do
  let field ← json.record? fieldNames
  let initial : MinerPolicy := {}
  return {
    mode := ← Json.orElse (field "mining_mode") initial.mode MiningMode.ofJson?
    payoutHex := ← Json.orElse (field "mine_address_script") initial.payoutHex (Json.option? Json.text?)
    maxWeight := ← Json.orElse (field "block_max_weight") initial.maxWeight (Json.natBelow? UInt64.size)
    maxSize := ← Json.orElse (field "block_max_size") initial.maxSize (Json.natBelow? UInt64.size)
    minFee := ← Json.orElse (field "block_min_tx_fee") initial.minFee Json.int64?
    mineWitness := ← Json.orElse (field "mine_witness_tx") initial.mineWitness Json.bool? }

def word? (text : String) : Option Nat :=
  (Text.natural? text).filter (· < UInt64.size)

def amount? (text : String) : Option Amount :=
  (Text.integer? text).bind fun value => (Json.int value).int64?

/-- The policy that environment variables set. One that does not read as a value of its kind is as good as
missing, but any text switches witnesses on or off. -/
def ofEnvironment (environment : List (String × String)) : MinerPolicy :=
  let initial : MinerPolicy := {}
  let value := fun name => environment.lookup name
  { mode := ((value "HC_MINING_MODE").bind MiningMode.ofText?).getD initial.mode
    payoutHex := value "HC_MINE_ADDRESS_SCRIPT"
    maxWeight := ((value "HC_BLOCK_MAX_WEIGHT").bind word?).getD initial.maxWeight
    maxSize := ((value "HC_BLOCK_MAX_SIZE").bind word?).getD initial.maxSize
    minFee := ((value "HC_BLOCK_MIN_TX_FEE").bind amount?).getD initial.minFee
    mineWitness := ((value "HC_MINE_WITNESS_TX").map fun text =>
      text == "1" || Text.lower text == "true").getD initial.mineWitness }

end MinerPolicy
end Mintage
