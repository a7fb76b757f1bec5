import Mintage.RuleError

/-! Why no block template could be built. -/

namespace Mintage

inductive TemplateError where
  | consensus (cause : RuleError)
  | mempoolUnavailable (why : String)
  | invalidTemplate (details : String)
  | invalidConfig (details : String)
  | missingPayoutScript
deriving DecidableEq, Repr

namespace TemplateError

def message : TemplateError → String
  | consensus cause => "Consensus error: " ++ cause.reason
  | mempoolUnavailable why => "Mempool unavailable: " ++ why
  | invalidTemplate details => "Invalid template: " ++ details
  | invalidConfig details => "Invalid configuration: " ++ details
  | missingPayoutScript => "No payout script configured"

/-- Whether a later attempt may succeed. -/
def isRecoverable : TemplateError → Bool
  | mempoolUnavailable _ | consensus _ => true
  | _ => false

/-- Whether no attempt can succeed before the policy changes. -/
def isCritical : TemplateError → Bool
  | invalidConfig _ | missingPayoutScript => true
  | _ => false

end TemplateError
end Mintage
