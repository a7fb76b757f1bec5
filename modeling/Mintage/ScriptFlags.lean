import Mintage.Deployment.Cache

/-! The script rules that a block is checked under. -/

namespace Mintage

structure ScriptFlags where
  bits : UInt32 := 0
deriving DecidableEq, Repr

namespace ScriptFlags

def p2sh : ScriptFlags := ⟨0x1⟩
def derSig : ScriptFlags := ⟨0x4⟩
def checkLockTimeVerify : ScriptFlags := ⟨0x200⟩
def checkSequenceVerify : ScriptFlags := ⟨0x400⟩
def witness : ScriptFlags := ⟨0x800⟩

def named : List (ScriptFlags × String) := [
  (p2sh, "P2SH"), (derSig, "DERSIG"), (checkLockTimeVerify, "CHECKLOCKTIMEVERIFY"),
  (checkSequenceVerify, "CHECKSEQUENCEVERIFY"), (witness, "WITNESS")]

def union (left right : ScriptFlags) : ScriptFlags :=
  ⟨left.bits ||| right.bits⟩

def contains (flags part : ScriptFlags) : Bool :=
  flags.bits &&& part.bits == part.bits

/-- The flags of that name, none if there is no such name. -/
def ofName (name : String) : ScriptFlags :=
  ((named.find? (·.2 == name)).map (·.1)).getD {}

def ofNames (names : List String) : ScriptFlags :=
  names.foldl (fun flags name => flags.union (ofName name)) {}

/-- The names of the flags that are set, with commas between them. -/
def names (flags : ScriptFlags) : String :=
  String.intercalate ", " ((named.filter fun entry => flags.contains entry.1).map (·.2))

/-- Three rules hold everywhere; two follow their deployments. -/
def ofStates (csv segwit : DeploymentState) : ScriptFlags :=
  let buried := (p2sh.union derSig).union checkLockTimeVerify
  let buried := if csv = .active then buried.union checkSequenceVerify else buried
  if segwit = .active then buried.union witness else buried

/-- The flags for the block on top of `previous`. -/
def enforced (params : Params) (previous : Option HeaderChain) : StateM DeploymentCache ScriptFlags := do
  let csv ← DeploymentCache.state params previous .csv
  let segwit ← DeploymentCache.state params previous .segwit
  return ofStates csv segwit

end ScriptFlags
end Mintage
