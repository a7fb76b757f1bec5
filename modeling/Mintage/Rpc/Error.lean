import Mintage.Json
import Mintage.Mining.Error

/-! Error objects of the mining interface. -/

namespace Mintage

inductive WalletError where
  | notFound (name : String)
  | invalidPassword
  | noUnusedAddress (account : String)
deriving DecidableEq, Repr

def WalletError.message : WalletError → String
  | notFound name => "Wallet not found: " ++ name
  | invalidPassword => "Invalid password"
  | noUnusedAddress account => "No unused address in account " ++ account

structure RpcError where
  code : Int
  message : String
  data : Option Json := none

namespace RpcError

def parse (details : String) : RpcError := ⟨-32700, "Parse error: " ++ details, none⟩

/-- A request that is understood but cannot be served. -/
def invalidRequest (message : String) : RpcError := ⟨-32600, message, none⟩

def methodNotFound (method : String) : RpcError := ⟨-32601, "Method not found: " ++ method, none⟩

def invalidParams (details : String) : RpcError := ⟨-32602, "Invalid params: " ++ details, none⟩

def internal (details : String) : RpcError := ⟨-32603, "Internal error: " ++ details, none⟩

def misc (message : String) : RpcError := ⟨-1, message, none⟩

def wallet (message : String) : RpcError := ⟨-4, message, none⟩

def invalidParameter (message : String) : RpcError := ⟨-8, message, none⟩

def deserialization (message : String) : RpcError := ⟨-22, message, none⟩

/-- A rejected block, with the reason. -/
def verify (reason : String) : RpcError := ⟨-25, reason, none⟩

def notImplemented (what : String) : RpcError := ⟨-1, what ++ " is not implemented", none⟩

def ofRule (cause : RuleError) : RpcError := verify cause.reason

def ofTemplate : TemplateError → RpcError
  | .consensus cause => ofRule cause
  | .invalidTemplate details => internal details
  | other => misc other.message

def ofWallet (cause : WalletError) : RpcError := wallet cause.message

def display (error : RpcError) : String :=
  s!"[{error.code}] {error.message}"

def toJson (error : RpcError) : Json :=
  .object ([("code", .int error.code), ("message", .text error.message)] ++
    (error.data.map fun data => ("data", data)).toList)

end RpcError
end Mintage
