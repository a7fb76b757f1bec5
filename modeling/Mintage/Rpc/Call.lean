import Mintage.Rpc.Error
import Mintage.Rpc.Method
import Mintage.Text.Blank

/-! Calls of the mining interface, read from a method name and its parameters. Parameters come in order
or by name; null stands for a missing one. -/

namespace Mintage

/-- What a client says about itself when it asks for a template. -/
structure TemplateRequest where
  mode : Option String := none
  capabilities : List String := []
  rules : List String := []
  data : Option String := none
deriving DecidableEq, Repr

namespace TemplateRequest

def ofJson? (json : Json) : Option TemplateRequest := do
  let field ← json.record? ["mode", "capabilities", "rules", "data"]
  return {
    mode := ← Json.orElse (field "mode") none (Json.option? Json.text?)
    capabilities := ← Json.orElse (field "capabilities") [] (Json.list? Json.text?)
    rules := ← Json.orElse (field "rules") [] (Json.list? Json.text?)
    data := ← Json.orElse (field "data") none (Json.option? Json.text?) }

/-- Whether some rule of the client contains this one, in any case. -/
def declares (request : TemplateRequest) (rule : String) : Bool :=
  request.rules.any fun text => Text.occurs (Text.lower rule).toList (Text.lower text).toList

end TemplateRequest

inductive RpcCall where
  | getBlockTemplate (request : TemplateRequest)
  | submitBlock (hex : String)
  | getMiningInfo
  | getNetworkHashRate (lookup height : Int)
  | generate (count : Int)
  | getStakingInfo (json : Bool)
  | startStaking (wallet password : String)
  | prioritiseTransaction (txid : String) (delta : Int)

/-- The parameters of a call to a method. -/
structure RpcArguments where
  given : Option Json
  names : List String

namespace RpcArguments

def get? (arguments : RpcArguments) (index : Nat) : Option Json :=
  let value := match arguments.given with
    | some (.array items) => items[index]?
    | some (.object fields) => arguments.names[index]?.bind fun name => fields.lookup name
    | _ => none
  value.bind fun
    | .null => none
    | value => some value

def name (arguments : RpcArguments) (index : Nat) : String :=
  arguments.names.getD index "param"

def optional {α : Type} (arguments : RpcArguments) (index : Nat) (value? : Json → Option α) :
    Except RpcError (Option α) :=
  match arguments.get? index with
  | none => .ok none
  | some json =>
    match value? json with
    | some value => .ok (some value)
    | none => .error (.invalidParams s!"{arguments.name index} ({index})")

def required {α : Type} (arguments : RpcArguments) (index : Nat) (value? : Json → Option α) : Except RpcError α := do
  match ← arguments.optional index value? with
  | some value => pure value
  | none => throw (.invalidParams s!"missing {arguments.name index} at index {index}")

end RpcArguments

def Json.integer? (json : Json) : Option Int :=
  json.int64?.map Int64.toInt

def RpcCall.read (name : String) (given : Option Json) : Except RpcError RpcCall := do
  let some method := RpcMethod.ofName? name | throw (.methodNotFound name)
  let arguments : RpcArguments := ⟨given, method.params⟩
  match name with
  | "getblocktemplate" =>
    return .getBlockTemplate ((← arguments.optional 0 TemplateRequest.ofJson?).getD {})
  | "submitblock" => return .submitBlock (← arguments.required 0 Json.text?)
  | "getmininginfo" => return .getMiningInfo
  | "getnetworkhashps" =>
    let lookup ← arguments.optional 0 Json.integer?
    let height ← arguments.optional 1 Json.integer?
    return .getNetworkHashRate (lookup.getD 120) (height.getD (-1))
  | "generate" => return .generate (← arguments.required 0 Json.integer?)
  | "getstakinginfo" => return .getStakingInfo ((← arguments.optional 0 Json.bool?).getD true)
  | "startstaking" =>
    return .startStaking (← arguments.required 0 Json.text?) (← arguments.required 1 Json.text?)
  | "prioritisetransaction" =>
    let txid ← arguments.required 0 Json.text?
    return .prioritiseTransaction txid ((← arguments.optional 2 Json.integer?).getD 0)
  | _ => throw (.methodNotFound name)

end Mintage
