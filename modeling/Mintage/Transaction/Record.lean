import Mintage.Record
import Mintage.Transaction

/-! Transactions as JSON. -/

namespace Mintage

/-- What an input spends. A height stands for the coinbase of the block there and goes before a transaction.
Without either it spends nothing, whatever its index. -/
def OutPoint.ofJson (coinbaseAt : Nat → Option Hash256) (json : Json) : Except RecordError OutPoint := do
  match ← json.optional Nat "coinbase" with
  | some height => return ⟨← Json.wellFormed (coinbaseAt height), ← json.field "vout" 0⟩
  | none =>
    match ← json.optional Hash256 "txid" with
    | some txid => return ⟨txid, ← json.field "vout" 0⟩
    | none => return .null

def TxInput.ofJson (coinbaseAt : Nat → Option Hash256) (json : Json) : Except RecordError TxInput := do
  return {
    previous := ← OutPoint.ofJson coinbaseAt json
    scriptSig := ← json.field "script_sig" []
    sequence := ← json.field "sequence" 0xffffffff
    witness := ← json.field "witness" [] }

instance : FromJson TxOutput where
  ofJson json := return ⟨← json.field "value" 0, ← json.field "script" []⟩

def Transaction.ofJson (coinbaseAt : Nat → Option Hash256) : Json → Except RecordError Transaction :=
  Transaction.decoder.ofJson fun json => return {
    inputs := ← json.listField (TxInput.ofJson coinbaseAt) "inputs"
    outputs := ← json.field "outputs" []
    version := ← json.field "version" 1
    lockTime := ← json.field "lock_time" 0 }

instance : FromJson Transaction := ⟨Transaction.ofJson fun _ => none⟩

instance : ToJson TxInput where
  toJson input := .object [
    ("txid", toJson input.previous.txid), ("vout", toJson input.previous.index),
    ("null", toJson input.previous.isNull), ("script_sig", toJson input.scriptSig),
    ("sequence", toJson input.sequence), ("witness", toJson input.witness)]

instance : ToJson TxOutput where
  toJson output := .object [
    ("value", toJson output.value), ("script", toJson output.script), ("empty", toJson output.isEmpty)]

instance : ToJson Transaction where
  toJson tx := .object [
    ("version", toJson tx.version), ("lock_time", toJson tx.lockTime), ("inputs", toJson tx.inputs),
    ("outputs", toJson tx.outputs)]

/-- A transaction and what is computed from it. -/
def Transaction.summary (tx : Transaction) : List (String × Json) := [
  ("tx", toJson tx), ("hex", toJson tx.encode), ("txid", toJson tx.txid), ("wtxid", toJson tx.wtxid),
  ("base_size", toJson tx.baseSize), ("total_size", toJson tx.totalSize), ("weight", toJson tx.weight),
  ("coinbase", toJson tx.isCoinbase), ("coinstake", toJson tx.isCoinstake), ("has_witness", toJson tx.hasWitness),
  ("total_out", toJson tx.totalOutput)]

end Mintage
