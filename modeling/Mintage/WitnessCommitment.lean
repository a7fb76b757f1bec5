import Mintage.Block

/-! The output by which a coinbase commits to all witnesses, and the nonce that the coinbase's own
witness holds. -/

namespace Mintage

namespace WitnessCommitment

/-- A return, a push of thirty-six bytes, and the four bytes that mark a commitment. -/
def header : Bytes := [Script.opReturn, 0x24, 0xaa, 0x21, 0xa9, 0xed]

def reserved : Bytes := List.replicate 32 0

def isCommitment (script : Script) : Bool :=
  38 ≤ script.length && header.isPrefixOf script

/-- Where the last element is that satisfies `wanted`. -/
def lastIndex? {α : Type} (wanted : α → Bool) : List α → Option Nat
  | [] => none
  | first :: rest =>
    match lastIndex? wanted rest with
    | some index => some (index + 1)
    | none => if wanted first then some 0 else none

/-- Where the first transaction has its commitment; of several the last counts. -/
def index? (block : Block) : Option Nat := do
  let first ← block.transactions.head?
  lastIndex? (fun output => isCommitment output.script) first.outputs

def hash (block : Block) (reserved : Bytes) : Hash256 :=
  sha256d (block.computeWitnessRoot.toBytes ++ reserved)

/-- The commitment to the witnesses of a block, which carries no value. -/
def output (block : Block) : TxOutput :=
  ⟨0, header ++ (hash block reserved).toBytes⟩

/-- A nonce as the coinbase carries it, in decimal. -/
def nonceItem (nonce : UInt64) : Bytes :=
  Bytes.ofString (toString nonce.toNat)

/-- Gives the coinbase a witness, if the rules are active, a commitment is there and no witness is yet. -/
def inject? (active : Bool) (nonce : UInt64) (block : Block) : Option Block := do
  guard ((index? block).isSome && active)
  let coinbase ← block.coinbase?
  guard !coinbase.hasWitness
  let witnessed := coinbase.inputs.map fun input => { input with witness := [nonceItem nonce] }
  return block.modifyFirst fun tx => { tx with inputs := witnessed }

end WitnessCommitment
end Mintage
