import Mintage.Node.Mining

/-! The mining interface of a node. -/

namespace Mintage.Node

def backend (config : NodeConfig) : RpcBackend Node where
  params := config.params
  payout := config.payout
  wallets := config.wallets
  tip := Node.tip
  known? := fun node hash => node.known[hash]?
  metrics := Node.metrics
  staking := Node.staking
  startStaking := fun node => { node with staking := node.staking.map fun info => { info with staking := true } }
  flags := fun tip => query (ScriptFlags.enforced config.params (some tip))
  finish := finish config
  template := template config
  accept := accept config
  generate := generate config

/-- A node's configuration, if its policy is sound. -/
def configure (config : NodeConfig) : Except TemplateError NodeConfig := do
  config.policy.validate
  return { config with payout := ← config.policy.payoutScript }

end Mintage.Node
