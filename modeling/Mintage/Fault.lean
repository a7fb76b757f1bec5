/-! How a computation over 256-bit numbers ends without a result. -/

namespace Mintage

inductive Fault (ε : Type) where
  | overflow
  | because (cause : ε)
deriving DecidableEq, Repr

def Fault.map {ε ε' : Type} (change : ε → ε') : Fault ε → Fault ε'
  | overflow => overflow
  | because cause => because (change cause)

end Mintage
