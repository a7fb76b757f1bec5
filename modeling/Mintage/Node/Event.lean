import Mintage.Node.Service

/-! What happens to a node from outside: calls of its mining interface, transactions that come in, and time. -/

namespace Mintage

inductive NodeEvent where
  | call (call : RpcCall)
  | offer (entry : MempoolEntry)
  | clock (now : UInt32)

namespace Node

/-- The node after an event; a call that fails may have changed it as well. -/
def handle (config : NodeConfig) (node : Node) : NodeEvent → Node
  | .call call =>
    match (backend config).answer call node with
    | .ok _ after => after
    | .error _ after => after
  | .offer entry => { node with pool := (node.pool.add? entry).getD node.pool }
  | .clock now => { node with clock := now }

def handleAll (config : NodeConfig) (node : Node) (events : List NodeEvent) : Node :=
  events.foldl (handle config) node

end Node
end Mintage
