import Mintage.Amount
import Mintage.Hash

/-! The rules that a block can break. -/

namespace Mintage

inductive RuleError where
  | coinbaseAmount (actual allowed : Amount)
  | coinbaseMissing
  | coinbaseRepeated
  | coinbaseLength (length : Nat)
  | immatureCoinbase (created spent : Nat)
  | immatureCoinstake (created spent : Nat)
  | missingInput (txid : Hash256)
  | outputsExceedInputs (inputs outputs : Amount)
  | inputOutOfRange
  | negativeOutput
  | outputTooLarge
  | outputTotalTooLarge
  | blockWeight (weight limit : Nat)
  | wrongParent
  | highHash
deriving DecidableEq, Repr

namespace RuleError

/-- The short reason that a rejected block is answered with. -/
def reason : RuleError → String
  | coinbaseAmount .. => "bad-cb-amount"
  | coinbaseMissing => "bad-cb-missing"
  | coinbaseRepeated => "bad-cb-multiple"
  | coinbaseLength .. => "bad-cb-length"
  | immatureCoinbase .. => "bad-txns-premature-spend-of-coinbase"
  | immatureCoinstake .. => "bad-txns-premature-spend-of-coinstake"
  | missingInput .. => "bad-txns-inputs-missingorspent"
  | outputsExceedInputs .. => "bad-txns-in-belowout"
  | inputOutOfRange => "bad-txns-inputvalues-outofrange"
  | negativeOutput => "bad-txns-vout-negative"
  | outputTooLarge => "bad-txns-vout-toolarge"
  | outputTotalTooLarge => "bad-txns-txouttotal-toolarge"
  | blockWeight .. => "bad-blk-weight"
  | wrongParent => "bad-prevblk"
  | highHash => "high-hash"

/-- Whether generated money was spent too early. -/
def isMaturity : RuleError → Bool
  | immatureCoinbase .. | immatureCoinstake .. => true
  | _ => false

end RuleError
end Mintage
