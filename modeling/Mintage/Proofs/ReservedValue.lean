import Mathlib.Data.Nat.Digits.Defs
import Mintage.Proofs.ByteWords
import Mintage.Proofs.WitnessCommitments

/-! The check of a verifier who takes the reserved value from the coinbase's own witness. Commitments are made
for thirty-two zero bytes and the witness is given the digits of a nonce, so the check comes down to a
collision of the hash. -/

namespace Mintage

theorem Hash256.toBytes_inj {left right : Hash256} : left.toBytes = right.toBytes ↔ left = right := by
  constructor
  · intro same
    rw [← left.ofBytes_toBytes, same, right.ofBytes_toBytes]
  · intro same
    rw [same]

namespace WitnessCommitment

variable {block after : Block} {script : Script} {active : Bool} {nonce : UInt64}

/-- What a commitment to the reserved value `value` is the hash of. -/
def message (block : Block) (value : Bytes) : Bytes :=
  block.computeWitnessRoot.toBytes ++ value

theorem hash_eq (block : Block) (value : Bytes) : hash block value = sha256d (message block value) :=
  rfl

/-- The hash in the commitment is the one of the block with the only witness item of its coinbase. -/
def Verifies (block : Block) : Prop :=
  ∃ coinbase input item index output, block.coinbase? = some coinbase ∧ coinbase.inputs = [input] ∧
    input.witness = [item] ∧ index? block = some index ∧ coinbase.outputs[index]? = some output ∧
    (output.script.drop header.length).take 32 = (hash block item).toBytes

theorem digit_bounds {n : Nat} {digit : Char} (written : digit ∈ Nat.toDigits 10 n) :
    48 ≤ digit.val.toNat ∧ digit.val.toNat ≤ 57 := by
  have decimal := Nat.isDigit_of_mem_toDigits (by decide) (by decide) written
  simp only [Char.isDigit, ge_iff_le, Bool.and_eq_true, decide_eq_true_eq, UInt32.le_iff_toNat_le] at decimal
  exact decimal

/-- Each digit is one byte of ASCII. -/
theorem nonceItem_eq_map (nonce : UInt64) :
    nonceItem nonce = (Nat.toDigits 10 nonce.toNat).map Bytes.ofChar := by
  rw [nonceItem, Nat.toString_eq_ofList_toDigits]
  apply Bytes.ofString_ofList
  intro digit written
  exact UInt32.le_iff_toNat_le.mpr ((digit_bounds written).2.trans (by decide))

private theorem mem_nonceItem {byte : UInt8} (listed : byte ∈ nonceItem nonce) : 48 ≤ byte.toNat := by
  rw [nonceItem_eq_map, List.mem_map] at listed
  obtain ⟨digit, written, rfl⟩ := listed
  obtain ⟨least, most⟩ := digit_bounds written
  rw [Bytes.ofChar, UInt32.toNat_toUInt8, Nat.mod_eq_of_lt (most.trans_lt (by decide))]
  exact least

/-- Digits are not zero bytes. -/
theorem nonceItem_ne_reserved (nonce : UInt64) : nonceItem nonce ≠ reserved := by
  intro same
  have zero : 0 ∈ nonceItem nonce := by
    rw [same]
    decide
  exact absurd (mem_nonceItem zero) (by decide)

/-- Only the coinbase's last output and its witness matter to the verifier. -/
theorem verifies_iff_of_carries {coinbase : Transaction} {input : TxInput} {item : Bytes}
    (carries : Carries block script) (found : block.coinbase? = some coinbase) (single : coinbase.inputs = [input])
    (witness : input.witness = [item]) :
    Verifies block ↔ hash block item = hash block reserved := by
  obtain ⟨⟨first, same, placed, last⟩, content⟩ := carries
  obtain rfl := Option.some.inj (found.symm.trans same)
  have committed : (script.drop header.length).take 32 = (hash block reserved).toBytes := by
    rw [content, List.drop_left, List.take_of_length_le (by simp)]
  have output : coinbase.outputs[coinbase.outputs.length - 1]? = some ⟨0, script⟩ := by
    rw [← List.getLast?_eq_getElem?, last]
  constructor
  · intro ⟨_, _, _, _, _, again, alone, own, index, there, check⟩
    obtain rfl := Option.some.inj (found.symm.trans again)
    obtain rfl := List.singleton_inj.mp (single.symm.trans alone)
    obtain rfl := List.singleton_inj.mp (witness.symm.trans own)
    obtain rfl := Option.some.inj (placed.symm.trans index)
    obtain rfl := Option.some.inj (output.symm.trans there)
    rw [committed, Hash256.toBytes_inj] at check
    exact check.symm
  · intro collides
    refine ⟨coinbase, input, item, _, _, found, single, witness, placed, output, ?_⟩
    rw [collides, committed]

end WitnessCommitment

namespace Assembly
open WitnessCommitment

variable {assembly : Assembly} {version : Int32} {candidates : List MempoolEntry} {payout : Script}
  {built : BlockTemplate} {active : Bool} {nonce : UInt64} {after : Block}

/-- A template with a commitment takes the first nonce that it is offered. -/
theorem inject?_template {bits : UInt32} (promised : assembly.includeWitness = true) (nonce : UInt64) :
    inject? true nonce (assembly.template candidates payout version bits).block = some
      { (assembly.template candidates payout version bits).block with
        transactions := (assembly.coinbase candidates payout).witnessed [nonceItem nonce] ::
          (assembly.selected candidates).map MempoolEntry.tx } := by
  have script : (assembly.template candidates payout version bits).commitment =
      some (output (assembly.draft candidates payout)).script :=
    if_pos promised
  obtain ⟨⟨_, _, placed, _⟩, _⟩ := carries_template script
  refine inject?_eq_some_iff.mpr ⟨?_, rfl, _, _, rfl, rfl, rfl, rfl⟩
  rw [placed, Option.isSome_some]

/-- The item that a block is given verifies exactly if the hash collides on two messages, one of which ends in the
digits of the nonce and the other in zeros. -/
theorem verifies_injected_iff_collision {script : Script} (done : assembly.build version candidates payout = .ok built)
    (promised : built.commitment = some script) (given : inject? active nonce built.block = some after) :
    (∃ coinbase input, after.coinbase? = some coinbase ∧ coinbase.inputs = [input] ∧
        input.witness = [nonceItem nonce]) ∧
      message after (nonceItem nonce) ≠ message after reserved ∧
      (Verifies after ↔ sha256d (message after (nonceItem nonce)) = sha256d (message after reserved)) := by
  obtain ⟨bits, _, rfl, _, _⟩ := build_eq_ok_iff.mp done
  have carries := carries_template promised
  obtain ⟨_, _, first, rest, listed, _, _, rfl⟩ := inject?_eq_some_iff.mp given
  obtain ⟨rfl, rfl⟩ := List.cons.inj listed
  let coinbase := (assembly.coinbase candidates payout).witnessed [nonceItem nonce]
  have inputs : coinbase.inputs = [{ scriptSig := coinbaseScript assembly.height, witness := [nonceItem nonce] }] := rfl
  have found : Block.coinbase? { (assembly.template candidates payout version bits).block with
      transactions := coinbase :: (assembly.selected candidates).map MempoolEntry.tx } = some coinbase :=
    Block.coinbase?_eq_some_iff.mpr ⟨_, rfl, rfl⟩
  refine ⟨⟨coinbase, _, found, inputs, rfl⟩, ?_, ?_⟩
  · intro same
    exact nonceItem_ne_reserved nonce (List.append_cancel_left same)
  · rw [← hash_eq, ← hash_eq]
    exact verifies_iff_of_carries (carries.witnessed listed _) found inputs rfl

end Assembly

namespace Staked
open WitnessCommitment

/-- A block with nothing but a coinbase. -/
def template : BlockTemplate :=
  assembly.template [] [0x51] 7 0x1d00ffff

/-- The same with its first nonce. -/
def after : Block :=
  { template.block with transactions := [(assembly.coinbase [] [0x51]).witnessed [nonceItem 0]] }

private theorem build_eq : assembly.build 7 [] [0x51] = .ok template := by
  have mode : assembly.policy.mode ≠ .proofOfWork := by decide
  exact Assembly.build_eq_ok_iff.mpr ⟨_, rfl, rfl, fun checked => absurd checked mode, rfl⟩

private theorem taken : inject? true 0 template.block = some after := by
  have promised : assembly.includeWitness = true := rfl
  exact Assembly.inject?_template promised 0

theorem nonce_verifies_iff_collision :
    ∃ script, assembly.build 7 [] [0x51] = .ok template ∧ template.commitment = some script ∧
      inject? true 0 template.block = some after ∧ message after (nonceItem 0) ≠ message after reserved ∧
      (Verifies after ↔ sha256d (message after (nonceItem 0)) = sha256d (message after reserved)) :=
  ⟨_, build_eq, rfl, taken, (Assembly.verifies_injected_iff_collision build_eq rfl taken).2⟩

theorem nonce_is_not_verified :
    ∃ script, assembly.build 7 [] [0x51] = .ok template ∧ template.commitment = some script ∧
      inject? true 0 template.block = some after ∧ ¬ Verifies after := by
  have carries : Carries after _ := (Assembly.carries_template rfl).witnessed rfl [nonceItem 0]
  have found : after.coinbase? = some ((assembly.coinbase [] [0x51]).witnessed [nonceItem 0]) :=
    Block.coinbase?_eq_some_iff.mpr ⟨_, rfl, rfl⟩
  have root : after.computeWitnessRoot = .zero := by
    change merkleRoot [.zero] = .zero
    rw [merkleRoot, Merkle.root]
  refine ⟨_, build_eq, rfl, taken, ?_⟩
  rw [verifies_iff_of_carries carries found rfl rfl, hash_eq, hash_eq, message, message, root]
  decide +kernel

end Staked
end Mintage
