/-! JSON values, and reading typed values out of them. A float is not an integer, whatever its value. -/

namespace Mintage

inductive Json where
  | null
  | bool (value : Bool)
  | int (value : Int)
  | float (value : Float)
  | text (value : String)
  | array (items : List Json)
  | object (fields : List (String × Json))
deriving Inhabited

namespace Json

def field? (name : String) : Json → Option Json
  | object fields => fields.lookup name
  | _ => none

def bool? : Json → Option Bool
  | bool value => some value
  | _ => none

def text? : Json → Option String
  | text value => some value
  | _ => none

/-- A number from zero up to below `bound`. -/
def natBelow? (bound : Nat) : Json → Option Nat
  | int value => if 0 ≤ value ∧ value.toNat < bound then some value.toNat else none
  | _ => none

def uint8? (json : Json) : Option UInt8 :=
  (json.natBelow? UInt8.size).map UInt8.ofNat

def uint32? (json : Json) : Option UInt32 :=
  (json.natBelow? UInt32.size).map UInt32.ofNat

def uint64? (json : Json) : Option UInt64 :=
  (json.natBelow? UInt64.size).map UInt64.ofNat

def int64? : Json → Option Int64
  | int value => if Int64.minValue.toInt ≤ value ∧ value ≤ Int64.maxValue.toInt then some (.ofInt value) else none
  | _ => none

def int32? : Json → Option Int32
  | int value => if Int32.minValue.toInt ≤ value ∧ value ≤ Int32.maxValue.toInt then some (.ofInt value) else none
  | _ => none

def float? : Json → Option Float
  | int value => some (Float.ofInt value)
  | float value => some value
  | _ => none

def list? {α : Type} (item? : Json → Option α) : Json → Option (List α)
  | array items => items.mapM item?
  | _ => none

/-- Null stands for nothing. -/
def option? {α : Type} (value? : Json → Option α) : Json → Option (Option α)
  | null => some none
  | json => (value? json).map some

/-- The fields of a record, which is written as an object or as the list of its values in order. A list
may be short but not long; unknown names are passed over. -/
def record? (names : List String) : Json → Option (String → Option Json)
  | object fields => some fun name => fields.lookup name
  | array items => if items.length ≤ names.length then some fun name => (names.zip items).lookup name else none
  | _ => none

/-- A field that may be missing. -/
def orElse {α : Type} (json : Option Json) (default : α) (value? : Json → Option α) : Option α :=
  match json with
  | none => some default
  | some json => value? json

/-- One of some names, written as a text or as an object that maps it to null. -/
def unit? : Json → Option String
  | text name => some name
  | object [(name, null)] => some name
  | _ => none

end Json
end Mintage
