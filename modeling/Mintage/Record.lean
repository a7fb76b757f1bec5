import Mintage.Hash
import Mintage.Json
import Mintage.Wire.Decoder

/-! Values as JSON. A field that is missing or null has its default value, if it has one. Hashes that are not
well-formed say why; bytes do not. -/

namespace Mintage

/-- Why a JSON value stands for no value of the type it is read at. -/
inductive RecordError where
  | malformed
  | encoding (cause : DecodeError)
deriving DecidableEq, Repr

class FromJson (α : Type) where
  ofJson : Json → Except RecordError α

class ToJson (α : Type) where
  toJson : α → Json

export ToJson (toJson)

namespace Json

def given? (json : Json) (name : String) : Option Json :=
  (json.field? name).filter fun
    | .null => false
    | _ => true

/-- A field as it is, null if there is none. -/
def rawField (json : Json) (name : String) : Json :=
  (json.field? name).getD .null

def wellFormed {α : Type} : Option α → Except RecordError α
  | some value => .ok value
  | none => .error .malformed

def optional (α : Type) [FromJson α] (json : Json) (name : String) : Except RecordError (Option α) :=
  (json.given? name).mapM FromJson.ofJson

/-- A field without a default. -/
def required (α : Type) [FromJson α] (json : Json) (name : String) : Except RecordError α := do
  wellFormed (← json.optional α name)

def field {α : Type} [FromJson α] (json : Json) (name : String) (default : α) : Except RecordError α := do
  return (← json.optional α name).getD default

def listOf {α : Type} (item : Json → Except RecordError α) : Json → Except RecordError (List α)
  | .array items => items.mapM item
  | _ => .error .malformed

/-- A field that holds a list, which is empty by default. -/
def listField {α : Type} (item : Json → Except RecordError α) (json : Json) (name : String) :
    Except RecordError (List α) :=
  match json.given? name with
  | none => .ok []
  | some items => listOf item items

end Json

instance : FromJson Json := ⟨.ok⟩
/-- Heights and counts have thirty-two bits. -/
instance : FromJson Nat := ⟨fun json => Json.wellFormed (json.natBelow? UInt32.size)⟩
instance : FromJson UInt8 := ⟨fun json => Json.wellFormed json.uint8?⟩
instance : FromJson UInt32 := ⟨fun json => Json.wellFormed json.uint32?⟩
instance : FromJson UInt64 := ⟨fun json => Json.wellFormed json.uint64?⟩
instance : FromJson Int32 := ⟨fun json => Json.wellFormed json.int32?⟩
instance : FromJson Int64 := ⟨fun json => Json.wellFormed json.int64?⟩
instance : FromJson Bool := ⟨fun json => Json.wellFormed json.bool?⟩
instance : FromJson String := ⟨fun json => Json.wellFormed json.text?⟩
instance {α : Type} [FromJson α] : FromJson (List α) := ⟨Json.listOf FromJson.ofJson⟩

instance : ToJson Json := ⟨id⟩
instance : ToJson Int := ⟨.int⟩
instance : ToJson Nat := ⟨fun n => .int n⟩
instance : ToJson UInt8 := ⟨fun n => .int n.toNat⟩
instance : ToJson UInt32 := ⟨fun n => .int n.toNat⟩
instance : ToJson UInt64 := ⟨fun n => .int n.toNat⟩
instance : ToJson Int32 := ⟨fun n => .int n.toInt⟩
instance : ToJson Int64 := ⟨fun n => .int n.toInt⟩
instance : ToJson Bool := ⟨.bool⟩
instance : ToJson Float := ⟨.float⟩
instance : ToJson String := ⟨.text⟩
instance {α : Type} [ToJson α] : ToJson (List α) := ⟨fun values => .array (values.map toJson)⟩
instance {α : Type} [ToJson α] : ToJson (Option α) := ⟨fun value => value.elim .null toJson⟩
instance {α β : Type} [ToJson α] [ToJson β] : ToJson (α × β) := ⟨fun (a, b) => .array [toJson a, toJson b]⟩

instance : ToJson Hash256 := ⟨fun hash => .text hash.toHex⟩

instance : FromJson Hash256 where
  ofJson json := do (Hash256.ofHex (← FromJson.ofJson json)).mapError (.encoding ∘ .invalidHex)

/-- The most bytes that are shown in full; of more, the number and the digest. -/
def shownBytes : Nat := 512

instance : ToJson Bytes where
  toJson content :=
    if content.length ≤ shownBytes then .text (Hex.encode content)
    else .text ("#" ++ toString content.length ++ ":" ++ Hex.encode (Sha256.digest content))

mutual

/-- Reads bytes from hexadecimal text, from parts that follow each other, or from a part that is repeated. -/
def bytesOfJson : Json → Except RecordError Bytes
  | .null => .ok []
  | .text hex => Json.wellFormed (Hex.decode hex).toOption
  | .array parts => bytesOfParts parts
  | .object fields => do
    let part ← repeatedPart fields
    let count : UInt64 ← (Json.object fields).field "n" 0
    return Bytes.repeated part count.toNat
  | _ => .error .malformed

def bytesOfParts : List Json → Except RecordError Bytes
  | [] => .ok []
  | part :: rest => return (← bytesOfJson part) ++ (← bytesOfParts rest)

def repeatedPart : List (String × Json) → Except RecordError Bytes
  | [] => .ok []
  | (name, part) :: rest => if name = "rep" then bytesOfJson part else repeatedPart rest

end

instance : FromJson Bytes := ⟨bytesOfJson⟩

/-- A value that is written as the hexadecimal text of its encoding, or as an object. -/
def Decoder.ofJson {α : Type} (decoder : Decoder α) (read : Json → Except RecordError α) :
    Json → Except RecordError α
  | .text hex => do
    let bytes ← Json.wellFormed (Hex.decode hex).toOption
    (decoder.run bytes).mapError .encoding
  | .object fields => read (.object fields)
  | _ => .error .malformed

end Mintage
