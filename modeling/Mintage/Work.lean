import Mintage.Params
import Mintage.RuleError

/-! How much work a block needs. The target follows the time that the last period took, within a factor
of four either way; a higher target is easier. -/

namespace Mintage

namespace Params

def limitBits (params : Params) : UInt32 :=
  CompactTarget.encode params.powLimit

/-- The seconds since `firstTime`, kept within a quarter and four times the period. There is no such
time when four periods overflow a word to less than a quarter. -/
def observedSpan? (params : Params) (chain : HeaderChain) (firstTime : UInt32) : Option Nat :=
  let period := max params.timespan 1
  let least := (period / 4).toNat
  let most := (period * 4).toNat
  if most < least then none
  else some (min most (max least (chain.header.time.toNat - firstTime.toNat)))

/-- Scales a target by `actual` over `expected`, dividing first where the product leaves 256 bits; nothing
if the quotient times `actual` leaves them too. -/
def scaled? (target actual expected : Nat) : Option Nat :=
  if target * actual < targetBound then some (target * actual / expected)
  else
    let coarse := target / expected * actual
    if coarse < targetBound then some coarse else none

/-- The bits after a period that started at `firstTime` and ends with `chain`. -/
def retarget? (params : Params) (chain : HeaderChain) (firstTime : UInt32) : Option UInt32 := do
  if params.noRetargeting then return chain.header.bits
  let actual ← params.observedSpan? chain firstTime
  let target := (CompactTarget.decode chain.header.bits).target
  let next ← scaled? target actual (max params.timespan 1).toNat
  return CompactTarget.encode (min next params.powLimit)

/-- The bits of the newest header that is not there by the exception for stalled chains. -/
def regularBits (params : Params) (interval : Nat) (chain : HeaderChain) : UInt32 :=
  let regular := chain.find? fun node =>
    node.height % interval == 0 || node.header.bits != params.limitBits
  regular.elim params.limitBits (·.header.bits)

/-- The bits that a block at `time` on top of `previous` must carry; nothing if the arithmetic leaves 256
bits. -/
def nextBits? (params : Params) (previous : Option HeaderChain) (time : UInt32) : Option UInt32 :=
  match previous with
  | none => some params.limitBits
  | some chain =>
    let interval := (max params.interval 1).toNat
    let height := chain.height + 1
    if height % interval ≠ 0 then
      if params.allowMinDifficulty then
        let stalled := chain.header.time.toUInt64 + params.spacing * 2
        some (if time.toUInt64 > stalled then params.limitBits else params.regularBits interval chain)
      else some chain.header.bits
    else
      let first := (chain.ancestor? (height - interval)).getD chain
      params.retarget? chain first.header.time

/-- A header's hash, as a number, may not exceed the target in its own bits, nor that the limit. -/
def checkWork (params : Params) (header : BlockHeader) : Except RuleError Unit :=
  let compact := CompactTarget.decode header.bits
  if !compact.valid || compact.target > params.powLimit then throw .highHash
  else if header.hash.toNat > compact.target then throw .highHash
  else pure ()

/-- Counts the nonce up until the check of the header comes out as `wanted`, in `tries` checks at most;
says whether it did. -/
def solve (params : Params) (wanted : Bool) : (tries : Nat) → Block → Block × Bool
  | 0, block => (block, false)
  | tries + 1, block =>
    if (params.checkWork block.header).isOk == wanted then (block, true)
    else solve params wanted tries { block with header := { block.header with nonce := block.header.nonce + 1 } }

/-- The reward is halved after every interval and gone after sixty-four of them. -/
def subsidy (params : Params) (height : Nat) : Amount :=
  let halvings := height / max params.halvingInterval 1
  if halvings ≥ 64 then 0 else Int64.ofInt (params.reward.toInt >>> halvings)

end Params
end Mintage
