import Mintage.Rpc.Reply

/-! What mining software makes of the answer to a template request: the block that the answer describes, but for the
nonce that is still to be found. The coinbase and the merkle root are its own work, apart from the code by which a node
assembles blocks. -/

namespace Mintage.TemplateReply

/-- Spends nothing, with the height in its script, pays the whole value to one script and repeats the commitment, if
there is one. -/
def coinbase? (reply : TemplateReply) (payout : Script) : Option Transaction := do
  let commitment ← reply.commitment.mapM fun text => (Hex.decode text).toOption
  return {
    inputs := [{ previous := .null, scriptSig := Script.pushInt reply.height ++ [Script.opZero] }]
    outputs := ⟨reply.coinbaseValue, payout⟩ :: (commitment.map fun script => ⟨0, script⟩).toList }

/-- The coinbase and the listed transactions in order, under a header with their merkle root; nothing if some text in
the reply does not read back. -/
def block? (reply : TemplateReply) (payout : Script) : Option Block := do
  let coinbase ← reply.coinbase? payout
  let previous ← (Hash256.ofHex reply.previousBlockHash).toOption
  let bits ← Hex.word? reply.bits
  let listed ← reply.transactions.mapM fun tx => (Transaction.decoder.runHex tx.data).toOption
  let transactions := coinbase :: listed
  return {
    header := {
      version := reply.version.toInt32
      previous
      merkleRoot := merkleRoot (transactions.map Transaction.txid)
      time := reply.time
      bits
      nonce := 0 }
    transactions }

end Mintage.TemplateReply
