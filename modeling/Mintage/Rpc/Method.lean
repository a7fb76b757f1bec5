/-! The methods of the mining interface and the names of their parameters. -/

namespace Mintage

structure RpcMethod where
  name : String
  /-- Whether a call changes the node. -/
  isWrite : Bool
  params : List String
  description : String
deriving DecidableEq, Repr

namespace RpcMethod

def all : List RpcMethod := [
  ⟨"getblocktemplate", false, ["template_request"], "Get the template for PoW mining blocks"⟩,
  ⟨"submitblock", true, ["hexdata", "dummy"], "Accept, verify and broadcast a block to the network"⟩,
  ⟨"getmininginfo", false, [], "Get mining-related information"⟩,
  ⟨"getnetworkhashps", false, ["nblocks", "height"], "Estimated network hashes per second over the last blocks"⟩,
  ⟨"generate", true, ["nblocks"], "Mine blocks and return their header hashes"⟩,
  ⟨"getstakinginfo", false, ["json"], "Get the staking information"⟩,
  ⟨"startstaking", true, ["walletname", "walletpassword"], "Start staking a wallet"⟩,
  ⟨"prioritisetransaction", true, ["txid", "dummy", "fee_delta"], "Accepts the transaction into mined blocks"⟩]

def ofName? (name : String) : Option RpcMethod :=
  all.find? (·.name == name)

/-- All names in alphabetical order. -/
def names : List String :=
  (all.map name).mergeSort

end RpcMethod
end Mintage
