import Mintage.Proofs.TemplateLimits
import Mintage.Proofs.TransactionIdentity

/-! The height in a coinbase. It can be read back from the script, where it begins in one of three ways, and the script
stands in the bytes that the coinbase is named by, so coinbases of different heights have different names as long as the
hash does not collide on them. -/

namespace Mintage

namespace Script

/-- The sign of a number that is not negative is at most a zero byte at its end. -/
theorem toNat_sign_false (bytes : Bytes) : (sign false bytes).toNat = bytes.toNat := by
  fun_induction sign false bytes with
  | case1 => rfl
  | case2 last set => simp [Bytes.toNat]
  | case3 last clear => rfl
  | case4 byte rest more ih => rw [Bytes.toNat, Bytes.toNat, ih]

theorem toNat_number (n : Nat) : (number n).toNat = n := by
  have positive : decide ((n : Int) < 0) = false := decide_eq_false (Int.not_lt.mpr (Int.natCast_nonneg n))
  rw [number, positive, toNat_sign_false, Int.natAbs_natCast, toNat_magnitude]

/-- The number that a script pushes first. -/
def leadingNat : Script → Nat
  | [] => 0
  | opcode :: rest =>
    if 0x50 < opcode.toNat then opcode.toNat - 0x50 else Bytes.toNat (rest.take opcode.toNat)

theorem leadingNat_pushInt_append {n width : Nat} (small : n < 256 ^ width) (short : width < 0x4b) (more : Script) :
    leadingNat (pushInt n ++ more) = n := by
  have length := length_number_le small
  have value := toNat_number n
  unfold pushInt
  split
  next zero =>
    obtain rfl : n = 0 := Int.natCast_eq_zero.mp zero
    rfl
  next positive =>
    split
    next negative => omega
    next =>
      split
      next between =>
        have opcode : (UInt8.ofNat (0x50 + n)).toNat = 0x50 + n := by
          rw [UInt8.toNat_ofNat']
          omega
        rw [Int.toNat_natCast, List.singleton_append, leadingNat, opcode, if_pos (by omega), Nat.add_sub_cancel_left]
      next above =>
        have size : (UInt8.ofNat (number n).length).toNat = (number n).length := by
          rw [UInt8.toNat_ofNat']
          omega
        rw [push, if_pos (by omega), List.cons_append, leadingNat, size, if_neg (by omega), List.take_left', value]
        rfl

end Script

theorem leadingNat_coinbaseScript {height : Nat} (low : height < 2 ^ 32) :
    Script.leadingNat (coinbaseScript height) = height := by
  have bytes : height < 256 ^ 4 := Nat.lt_of_lt_of_le low (by decide)
  exact Script.leadingNat_pushInt_append bytes (by decide) _

theorem coinbaseScript_inj {height other : Nat} (low : height < 2 ^ 32) (otherLow : other < 2 ^ 32) :
    coinbaseScript height = coinbaseScript other ↔ height = other := by
  constructor
  · intro same
    rw [← leadingNat_coinbaseScript low, same, leadingNat_coinbaseScript otherLow]
  · intro same
    rw [same]

namespace Transaction

variable {tx other : Transaction} {height later : Nat}

/-- The input of a coinbase for a block at `height`, with some witness. What the transaction pays is left open. -/
def MintedAt (tx : Transaction) (height : Nat) : Prop :=
  ∃ witness, tx.inputs = [{ scriptSig := coinbaseScript height, witness }]

theorem MintedAt.isCoinbase (minted : tx.MintedAt height) : tx.isCoinbase = true := by
  obtain ⟨witness, single⟩ := minted
  rw [Transaction.isCoinbase, single]
  rfl

theorem MintedAt.witnessed (minted : tx.MintedAt height) (witness : List Bytes) :
    (tx.witnessed witness).MintedAt height := by
  obtain ⟨_, single⟩ := minted
  exact ⟨witness, by rw [Transaction.witnessed, single, List.map_singleton]⟩

/-- The script is in the bytes, and what comes before it has the same length in both. -/
theorem MintedAt.encodeWith_ne (minted : tx.MintedAt height) (mintedLater : other.MintedAt later) (low : height < 2 ^ 32)
    (lowLater : later < 2 ^ 32) (apart : height ≠ later) : tx.encodeWith false ≠ other.encodeWith false := by
  have admitted {tx : Transaction} {height : Nat} (minted : tx.MintedAt height) (low : height < 2 ^ 32) :
      tx.stripped.inputs = [{ scriptSig := coinbaseScript height }] ∧ tx.stripped.inputs.length < 2 ^ 64 ∧
        ∀ input ∈ tx.stripped.inputs, input.scriptSig.length < 2 ^ 64 ∧ input.witness = [] := by
    obtain ⟨witness, single⟩ := minted
    have inputs : tx.stripped.inputs = [{ scriptSig := coinbaseScript height }] := by
      rw [stripped, single]
      rfl
    have script : (coinbaseScript height).length < 2 ^ 64 :=
      Nat.lt_of_le_of_lt (length_coinbaseScript low.le).2 (by decide)
    rw [inputs, List.forall_mem_singleton, List.length_singleton]
    exact ⟨rfl, by decide, script, rfl⟩
  obtain ⟨inputs, admits⟩ := admitted minted low
  obtain ⟨inputsLater, admitsLater⟩ := admitted mintedLater lowLater
  intro same
  rw [encodeWith_false_eq, encodeWith_false_eq, plainBody, plainBody] at same
  obtain ⟨-, same⟩ := List.append_inj same (by rw [Bytes.length_ofNat, Bytes.length_ofNat])
  obtain ⟨agree, -⟩ :=
    (CompactSize.selfDelimiting_encodeItems TxInput.selfDelimiting_encode).cancel admits admitsLater same
  rw [inputs, inputsLater, List.singleton_inj, TxInput.mk.injEq, coinbaseScript_inj low lowLater] at agree
  exact apart agree.2.1

end Transaction

namespace WitnessCommitment

variable {block : Block} {height : Nat}

/-- The nonce goes into the witness of the coinbase, which leaves the height as it is. -/
theorem mintedAt_offered {coinbase : Transaction} (first : block.coinbase? = some coinbase)
    (minted : coinbase.MintedAt height) (active : Bool) (nonce : UInt64) :
    ∃ reward, (offered active nonce block).coinbase? = some reward ∧ reward.MintedAt height := by
  unfold offered
  cases given : inject? active nonce block with
  | none => exact ⟨coinbase, first, minted⟩
  | some after =>
    obtain ⟨_, _, found, rest, listed, holds, _, rfl⟩ := inject?_eq_some_iff.mp given
    obtain ⟨_, listedFirst, _⟩ := Block.coinbase?_eq_some_iff.mp first
    obtain ⟨rfl, rfl⟩ := List.cons.inj (listed.symm.trans listedFirst)
    have later := minted.witnessed [nonceItem nonce]
    exact ⟨_, Block.coinbase?_eq_some_iff.mpr ⟨rest, rfl, later.isCoinbase⟩, later⟩

end WitnessCommitment

theorem Block.checkStructure_of_mintedAt {block : Block} {coinbase : Transaction} {rest : List Transaction} {height : Nat}
    (listed : block.transactions = coinbase :: rest) (minted : coinbase.MintedAt height) (low : height < 2 ^ 32)
    (others : ∀ tx ∈ rest, tx.isCoinbase = false) : block.checkStructure = .ok () := by
  have script := length_coinbaseScript low.le
  refine Block.checkStructure_eq_ok_iff.mpr ⟨coinbase, rest, listed, minted.isCoinbase, others, ?_⟩
  obtain ⟨_, single⟩ := minted
  rw [single, List.forall_mem_singleton]
  exact ⟨script.1, script.2.trans (by decide)⟩

theorem Assembly.mintedAt_of_build {assembly : Assembly} {version : Int32} {candidates : List MempoolEntry}
    {payout : Script} {built : BlockTemplate} (done : assembly.build version candidates payout = .ok built) :
    ∃ coinbase, built.block.coinbase? = some coinbase ∧ coinbase.MintedAt built.height := by
  obtain ⟨bits, _, rfl, _⟩ := build_eq_ok_iff.mp done
  exact ⟨assembly.coinbase candidates payout, Block.coinbase?_eq_some_iff.mpr ⟨_, rfl, rfl⟩, [], rfl⟩

/-- A coinbase spends nothing, so the entries under other names stay. -/
theorem CoinView.get?_update_of_mintedAt {tx : Transaction} {height : Nat} (minted : tx.MintedAt height) (view : CoinView)
    (place : Nat) {txid : Hash256} (other : tx.txid ≠ txid) : (view.update tx place).get? txid = view.get? txid := by
  rw [update_eq, get?_insert, if_neg other, tx.spent_of_isCoinbase minted.isCoinbase]
  rfl

/-- The script of a coinbase has a length that the rules accept, and says for which height it was made. So the coinbases
of templates for two heights are hashed from different bytes, whatever they pay and whatever nonces they were given, and
neither touches the entry of the other in a coin view unless the hash collides on these bytes. -/
theorem coinbases_of_heights_are_apart :
    (∀ height < 2 ^ 32, 2 ≤ (coinbaseScript height).length ∧ (coinbaseScript height).length ≤ 100 ∧
      ∀ {block : Block} {coinbase : Transaction} {rest : List Transaction}, block.transactions = coinbase :: rest →
        coinbase.MintedAt height → (∀ tx ∈ rest, tx.isCoinbase = false) → block.checkStructure = .ok ()) ∧
    (∀ height < 2 ^ 32, ∀ later < 2 ^ 32, coinbaseScript height = coinbaseScript later → height = later) ∧
    ∀ {assembly other : Assembly} {version otherVersion : Int32} {candidates otherCandidates : List MempoolEntry}
      {payout otherPayout : Script} {built otherBuilt : BlockTemplate},
      assembly.build version candidates payout = .ok built →
      other.build otherVersion otherCandidates otherPayout = .ok otherBuilt →
      built.height < 2 ^ 32 → otherBuilt.height < 2 ^ 32 → built.height ≠ otherBuilt.height →
      ∀ active nonce otherActive otherNonce, ∃ reward otherReward,
        (WitnessCommitment.offered active nonce built.block).coinbase? = some reward ∧
        (WitnessCommitment.offered otherActive otherNonce otherBuilt.block).coinbase? = some otherReward ∧
        reward.encodeWith false ≠ otherReward.encodeWith false ∧
        (reward.txid = otherReward.txid ↔ Collide (reward.encodeWith false) (otherReward.encodeWith false)) ∧
        (¬ Collide (reward.encodeWith false) (otherReward.encodeWith false) → ∀ (view : CoinView) (height : Nat),
          (view.update reward height).get? otherReward.txid = view.get? otherReward.txid) := by
  refine ⟨?lengths, ?scripts, ?templates⟩
  case lengths =>
    intro height low
    have script := length_coinbaseScript low.le
    refine ⟨script.1, by omega, ?_⟩
    intro block coinbase rest listed minted others
    exact Block.checkStructure_of_mintedAt listed minted low others
  case scripts =>
    intro height low later lowLater
    exact (coinbaseScript_inj low lowLater).mp
  case templates =>
    intro assembly other version otherVersion candidates otherCandidates payout otherPayout built otherBuilt done
      otherDone low otherLow apart active nonce otherActive otherNonce
    obtain ⟨_, first, minted⟩ := Assembly.mintedAt_of_build done
    obtain ⟨_, otherFirst, otherMinted⟩ := Assembly.mintedAt_of_build otherDone
    obtain ⟨reward, found, minted⟩ := WitnessCommitment.mintedAt_offered first minted active nonce
    obtain ⟨otherReward, otherFound, otherMinted⟩ :=
      WitnessCommitment.mintedAt_offered otherFirst otherMinted otherActive otherNonce
    have bytes := minted.encodeWith_ne otherMinted low otherLow apart
    have named : reward.txid = otherReward.txid ↔
        Collide (reward.encodeWith false) (otherReward.encodeWith false) :=
      (and_iff_right bytes).symm
    refine ⟨reward, otherReward, found, otherFound, bytes, named, ?_⟩
    intro resistant view height
    exact CoinView.get?_update_of_mintedAt minted view height (mt named.mp resistant)

/-! Heights sixteen and seventeen, the last with an opcode of its own and the first that is pushed as a number. -/
namespace Sixteenth

def parent : HeaderChain :=
  (List.replicate 15 ({} : BlockHeader)).foldl .extend (.genesis {})

def assembly (tip : HeaderChain) : Assembly :=
  { Staked.assembly with tip }

theorem sixteenth_differs_from_seventeenth :
    ∃ built otherBuilt reward otherReward,
      (assembly parent).build 7 [] [0x51] = .ok built ∧ (assembly (parent.extend {})).build 7 [] [0x51] = .ok otherBuilt ∧
      built.height = 16 ∧ otherBuilt.height = 17 ∧
      (WitnessCommitment.offered true 7 built.block).coinbase? = some reward ∧
      (WitnessCommitment.offered true 8 otherBuilt.block).coinbase? = some otherReward ∧
      reward.encodeWith false ≠ otherReward.encodeWith false := by
  have build (tip : HeaderChain) :
      (assembly tip).build 7 [] [0x51] = .ok ((assembly tip).template [] [0x51] 7 0x1d00ffff) := by
    have nothing : Amount.Fits ((assembly tip).feeSum []) := by
      change Amount.Fits 0
      decide
    have none : ∀ entry ∈ (assembly tip).selected [], 0 ≤ entry.fee.toInt :=
      List.forall_mem_nil _
    have consistent : ((assembly tip).template [] [0x51] 7 0x1d00ffff).isConsistent = true :=
      Assembly.isConsistent_of_fits none nothing 7 0x1d00ffff
    exact Assembly.build_eq_ok_iff.mpr ⟨_, rfl, rfl, nofun, consistent⟩
  obtain ⟨_, _, templates⟩ := coinbases_of_heights_are_apart
  obtain ⟨reward, otherReward, found, otherFound, bytes, _⟩ :=
    templates (build parent) (build (parent.extend {})) (by decide) (by decide) (by decide) true 7 true 8
  exact ⟨_, _, reward, otherReward, build parent, build _, rfl, rfl, found, otherFound, bytes⟩

end Sixteenth
end Mintage
