import Mintage.Node

/-! What a node does with the blocks it is offered. -/

namespace Mintage.Node

def connect (config : NodeConfig) (parent : HeaderChain) (block : Block) : EStateM RuleError Node Unit := fun node =>
  match config.params.execute block (parent.height + 1) node.coins with
  | .error broken coins => .error broken { node with coins }
  | .ok _ coins => .ok () ({ node with coins, pool := node.pool.removeBlock block }.extendTip parent block)

/-- A block must have a known parent and its proof of work. Of one that does not extend the tip only the header is
remembered. -/
def acceptChecked (config : NodeConfig) (block : Block) : EStateM RuleError Node Unit := do
  let node ← get
  let some parent := node.known[block.header.previous]? | throw .wrongParent
  ofExcept (config.params.checkWork block.header)
  let some tip := node.tip | throw .wrongParent
  if parent.chain.hash ≠ tip.hash then
    set (node.recognise (.extend parent.chain block.header) config.trustsSide)
  else
    ofExcept (config.params.validate node.coins maxBlockWeight block parent.chain)
    connect config parent.chain block

def accept (config : NodeConfig) (block : Block) : EStateM RuleError Node Unit := do
  modify fun node => { node with offered := node.offered.push (block.hash, witnessItems block) }
  let node ← get
  match node.acceptance with
  | .checked => acceptChecked config block
  | .reject cause => throw cause
  | .keep => pure ()
  | .append =>
    match node.tip with
    | none => throw .wrongParent
    | some tip => set (node.extendTip tip block)

end Mintage.Node
