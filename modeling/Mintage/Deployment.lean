import Mintage.HeaderChain

/-! Rule changes that miners vote for through bits of the header version, and when voting on them
starts and times out. -/

namespace Mintage

inductive DeploymentId where
  | testDummy
  | csv
  | segwit
deriving DecidableEq, Repr, Hashable

namespace DeploymentId

def all : List DeploymentId := [testDummy, csv, segwit]

def name : DeploymentId → String
  | testDummy => "testdummy"
  | csv => "csv"
  | segwit => "segwit"

def ofName? (name : String) : Option DeploymentId :=
  all.find? (·.name == name)

end DeploymentId

inductive Milestone where
  | always
  | never
  | height (value : Nat)
  | medianTime (value : Nat)
deriving DecidableEq, Repr

/-- Whether the bound holds for the block after `previous`. -/
def Milestone.reached : Milestone → (previous : HeaderChain) → Bool
  | always, _ => true
  | never, _ => false
  | height value, previous => value ≤ previous.height + 1
  | medianTime value, previous => value ≤ previous.medianTimePast

structure Deployment where
  id : DeploymentId
  bit : UInt8
  start : Milestone
  timeout : Milestone
deriving DecidableEq, Repr

/-- The version bit as a mask; the bit number counts modulo the word size. -/
def Deployment.mask (deployment : Deployment) : UInt32 :=
  1 <<< deployment.bit.toUInt32

end Mintage
