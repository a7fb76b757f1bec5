import Mintage.Block

/-! Changes that make one block into another: to its first transaction, to what follows, to its header. -/

namespace Mintage

structure Draft where
  dropFirst : Bool := false
  /-- Added to the first output, wrapping around. -/
  addValue : Option Amount := none
  scriptSig : Option Script := none
  /-- The only witness item of the first input. -/
  witness : Option Bytes := none
  appended : List Transaction := []
  previous : Option Hash256 := none
  version : Option Int32 := none
  time : Option UInt32 := none
  bits : Option UInt32 := none

namespace Draft

def editOutput (draft : Draft) (output : TxOutput) : TxOutput :=
  { output with value := output.value + draft.addValue.getD 0 }

def editInput (draft : Draft) (input : TxInput) : TxInput :=
  { input with
    scriptSig := draft.scriptSig.getD input.scriptSig
    witness := (draft.witness.map fun item => [item]).getD input.witness }

def editFirst (draft : Draft) (tx : Transaction) : Transaction :=
  { tx with inputs := tx.inputs.modifyHead draft.editInput, outputs := tx.outputs.modifyHead draft.editOutput }

/-- The changed block, with the merkle root of what it holds now. -/
def apply (draft : Draft) (block : Block) : Block :=
  let kept := if draft.dropFirst then block.transactions.tail else block.transactions
  let header := { block.header with
    previous := draft.previous.getD block.header.previous
    version := draft.version.getD block.header.version
    time := draft.time.getD block.header.time
    bits := draft.bits.getD block.header.bits }
  Block.sealed ⟨header, kept.modifyHead draft.editFirst ++ draft.appended⟩

end Draft
end Mintage
