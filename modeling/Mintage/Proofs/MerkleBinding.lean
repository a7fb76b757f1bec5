import Mathlib.Data.Nat.Pairing
import Mintage.Proofs.TransactionIdentity

/-! What a merkle root says about its leaves. Going up, each level determines the one below it as long as their number
is known: the couples that are hashed can be told from their hashes, and a level from its couples. The number has to be
known, since the root does not tell a last leaf without a neighbour from two equal ones. -/

namespace Mintage

namespace Merkle

variable {α : Type} {pair : α → α → α} {empty : α} {level other leaves others : List α}

/-- The couples that a level is hashed in. -/
def couples : List α → List (α × α)
  | [] => []
  | [last] => [(last, last)]
  | left :: right :: rest => (left, right) :: couples rest

theorem parents_eq_map_couples (level : List α) :
    parents pair level = (couples level).map fun couple => pair couple.1 couple.2 := by
  fun_induction couples level with
  | case1 => rfl
  | case2 => rfl
  | case3 left right rest ih => rw [parents, ih, List.map_cons]

theorem length_couples (level : List α) : (couples level).length = (level.length + 1) / 2 := by
  rw [← length_parents fun left _ => left, parents_eq_map_couples, List.length_map]

/-- Couples tell levels of one length apart. Without the length, a last node could be there once or twice. -/
theorem eq_of_couples_eq (count : level.length = other.length) (same : couples level = couples other) :
    level = other := by
  fun_induction couples level generalizing other with
  | case1 => exact (List.eq_nil_of_length_eq_zero count.symm).symm
  | case2 last =>
    obtain ⟨single, rfl⟩ := List.length_eq_one_iff.mp count.symm
    rw [couples, List.singleton_inj, Prod.mk.injEq] at same
    rw [same.1]
  | case3 left right rest ih =>
    match other with
    | [] => cases count
    | [_] => cases count
    | first :: second :: more =>
      rw [couples, List.cons.injEq, Prod.mk.injEq] at same
      obtain ⟨⟨rfl, rfl⟩, later⟩ := same
      rw [ih (Nat.succ.inj (Nat.succ.inj count)) later]

/-- All couples that are hashed on the way to the root. -/
def hashed (pair : α → α → α) : List α → List (α × α)
  | [] => []
  | [_] => []
  | first :: second :: rest =>
    couples (first :: second :: rest) ++ hashed pair (parents pair (first :: second :: rest))
termination_by level => level.length
decreasing_by
  rw [length_parents]
  simp only [List.length_cons]
  omega

/-- In one place of two trees different couples are hashed, and the hashes are equal. -/
def Clash (pair : α → α → α) (leaves others : List α) : Prop :=
  ∃ first second, (first, second) ∈ (hashed pair leaves).zip (hashed pair others) ∧ first ≠ second ∧
    pair first.1 first.2 = pair second.1 second.2

theorem exists_clash_of_map_eq {first second : List (α × α)} (different : first ≠ second)
    (same : first.map (fun couple => pair couple.1 couple.2) = second.map fun couple => pair couple.1 couple.2) :
    ∃ one two, (one, two) ∈ first.zip second ∧ one ≠ two ∧ pair one.1 one.2 = pair two.1 two.2 := by
  induction first generalizing second with
  | nil =>
    rw [List.map_nil, eq_comm, List.map_eq_nil_iff] at same
    exact absurd same.symm different
  | cons couple rest ih =>
    obtain ⟨partner, more, rfl, hash, later⟩ := List.map_eq_cons_iff.mp same.symm
    by_cases head : couple = partner
    · subst head
      have tails : rest ≠ more := fun equal => different (by rw [equal])
      obtain ⟨one, two, placed, unequal, collide⟩ := ih tails later.symm
      exact ⟨one, two, List.mem_cons_of_mem _ placed, unequal, collide⟩
    · exact ⟨couple, partner, List.mem_cons_self, head, hash.symm⟩

/-- Two trees of one size with one root have the same leaves, or a clash in some level: the lowest of those that agree
was hashed from different couples. -/
theorem eq_or_clash_of_root_eq (count : leaves.length = others.length)
    (same : root pair empty leaves = root pair empty others) : leaves = others ∨ Clash pair leaves others := by
  fun_induction root pair empty leaves generalizing others with
  | case1 => exact .inl (List.eq_nil_of_length_eq_zero count.symm).symm
  | case2 top =>
    obtain ⟨single, rfl⟩ := List.length_eq_one_iff.mp count.symm
    rw [root] at same
    exact .inl (by rw [same])
  | case3 first second rest ih =>
    match others with
    | [] => cases count
    | [_] => cases count
    | one :: two :: more =>
      set level := first :: second :: rest with level_eq
      set other := one :: two :: more with other_eq
      have above : (parents pair level).length = (parents pair other).length := by
        rw [length_parents, length_parents, count]
      have width : (couples level).length = (couples other).length := by
        rw [length_couples, length_couples, count]
      have places : (hashed pair level).zip (hashed pair other) = (couples level).zip (couples other) ++
          (hashed pair (parents pair level)).zip (hashed pair (parents pair other)) := by
        rw [level_eq, other_eq, hashed, hashed, List.zip_append width]
      rw [other_eq, root] at same
      obtain agree | ⟨left, right, placed, unequal, collide⟩ := ih above same
      · by_cases equal : couples level = couples other
        · exact .inl (eq_of_couples_eq count equal)
        · rw [parents_eq_map_couples, parents_eq_map_couples] at agree
          obtain ⟨left, right, placed, unequal, collide⟩ := exists_clash_of_map_eq equal agree
          exact .inr ⟨left, right, places ▸ List.mem_append_left _ placed, unequal, collide⟩
      · exact .inr ⟨left, right, places ▸ List.mem_append_right _ placed, unequal, collide⟩

theorem not_clash_of_injective (injective : Function.Injective2 pair) (leaves others : List α) :
    ¬ Clash pair leaves others := by
  rintro ⟨first, second, _, different, collide⟩
  obtain ⟨left, right⟩ := injective collide
  exact different (Prod.ext left right)

theorem parents_append_copy {init : List α} (even : init.length % 2 = 0) (last : α) :
    parents pair (init ++ [last, last]) = parents pair (init ++ [last]) := by
  fun_induction couples init with
  | case1 => rfl
  | case2 => cases even
  | case3 left right rest ih =>
    rw [List.length_cons, List.length_cons, Nat.add_assoc, Nat.add_mod_right] at even
    simp only [List.cons_append, parents, ih even]

/-- Lists of different lengths can have one root: a last leaf without a neighbour counts as if it stood there twice. -/
theorem root_append_copy {init : List α} (even : init.length % 2 = 0) (more : init ≠ []) (last : α) :
    root pair empty (init ++ [last, last]) = root pair empty (init ++ [last]) := by
  match init with
  | [] => exact absurd rfl more
  | [_] => cases even
  | first :: second :: rest =>
    have above : parents pair _ = parents pair _ := parents_append_copy even last
    simp only [List.cons_append] at above ⊢
    rw [root, root, above]

end Merkle

/-- The message that two hashes are hashed as. -/
def coupleBytes (couple : Hash256 × Hash256) : Bytes :=
  couple.1.toBytes ++ couple.2.toBytes

theorem coupleBytes_injective : Function.Injective coupleBytes := by
  intro couple other same
  obtain ⟨left, right⟩ := Hash256.selfDelimiting_toBytes.cancel trivial trivial same
  obtain ⟨right, -⟩ := Hash256.selfDelimiting_toBytes.cancel trivial trivial (congrArg (· ++ []) right)
  exact Prod.ext left right

/-- The hash collides on two messages that it is given in one place of the two trees. -/
def TreesCollide (leaves others : List Hash256) : Prop :=
  ∃ first second, (first, second) ∈ (Merkle.hashed hashPair leaves).zip (Merkle.hashed hashPair others) ∧
    Collide (coupleBytes first) (coupleBytes second)

theorem treesCollide_iff_clash {leaves others : List Hash256} :
    TreesCollide leaves others ↔ Merkle.Clash hashPair leaves others := by
  refine exists_congr fun first => exists_congr fun second => and_congr_right fun _ => ?_
  exact and_congr_left' coupleBytes_injective.ne_iff

theorem not_treesCollide_self (leaves : List Hash256) : ¬ TreesCollide leaves leaves := by
  rintro ⟨first, second, placed, different, _⟩
  obtain ⟨place, inside, found⟩ := List.getElem_of_mem placed
  rw [List.getElem_zip] at found
  obtain ⟨rfl, rfl⟩ := Prod.mk.inj found
  exact different rfl

/-- The root of a tree over an injective pairing determines as many leaves as are known to be under it. With the hash in
that place, equal roots mean equal leaves unless it collides inside the two trees, and blocks of as many transactions have
the same identifiers in the same places. -/
theorem merkle_root_binds_leaves :
    (∀ {α : Type} (pair : α → α → α) (empty : α) (leaves others : List α), Function.Injective2 pair →
      leaves.length = others.length →
      (Merkle.root pair empty leaves = Merkle.root pair empty others ↔ leaves = others)) ∧
    (∀ leaves others : List Hash256, leaves.length = others.length → merkleRoot leaves = merkleRoot others →
      leaves = others ∨ TreesCollide leaves others) ∧
    ∀ block other : Block, block.transactions.length = other.transactions.length →
      block.computeMerkleRoot = other.computeMerkleRoot →
      List.Forall₂ (fun tx twin => tx.txid = twin.txid) block.transactions other.transactions ∨
        TreesCollide (block.transactions.map Transaction.txid) (other.transactions.map Transaction.txid) := by
  have hashes : ∀ leaves others : List Hash256, leaves.length = others.length →
      merkleRoot leaves = merkleRoot others → leaves = others ∨ TreesCollide leaves others := by
    intro leaves others count same
    rw [treesCollide_iff_clash]
    exact Merkle.eq_or_clash_of_root_eq count same
  refine ⟨?injective, hashes, ?blocks⟩
  case injective =>
    intro α pair empty leaves others injective count
    constructor
    · intro same
      exact (Merkle.eq_or_clash_of_root_eq count same).resolve_right
        (Merkle.not_clash_of_injective injective leaves others)
    · intro same
      rw [same]
  case blocks =>
    intro block other count same
    obtain equal | collision := hashes _ _ (by rw [List.length_map, List.length_map, count]) same
    · left
      rwa [← List.forall₂_eq_eq_eq, List.forall₂_map_left_iff, List.forall₂_map_right_iff] at equal
    · exact .inr collision

/-! Three transactions, the last of which has no neighbour, and the same three with a witness in the first one. -/
namespace Tripled

def reward : Transaction :=
  { inputs := [{ scriptSig := [0x51, 0x00] }], outputs := [⟨50, [0x51]⟩] }

def payments : List Transaction := [
  { inputs := [{ previous := ⟨⟨1⟩, 0⟩ }], outputs := [⟨5, [0x51]⟩] },
  { inputs := [{ previous := ⟨⟨1⟩, 1⟩ }], outputs := [⟨6, [0x51]⟩] }]

def block : Block where
  transactions := reward :: payments

def twin : Block where
  transactions := reward.witnessed [[7]] :: payments

theorem last_leaf_is_bound :
    (Function.Injective2 Nat.pair ∧ Merkle.root Nat.pair 0 [1, 2, 3] ≠ Merkle.root Nat.pair 0 [1, 2, 4]) ∧
    block ≠ twin ∧ block.transactions.length = twin.transactions.length ∧
    block.computeMerkleRoot = twin.computeMerkleRoot ∧
    List.Forall₂ (fun tx twin => tx.txid = twin.txid) block.transactions twin.transactions := by
  have injective : Function.Injective2 Nat.pair := fun _ _ _ _ same => Nat.pair_eq_pair.mp same
  have listed : block.transactions.map Transaction.txid = twin.transactions.map Transaction.txid := by
    rw [block, twin, List.map_cons, List.map_cons, reward.txid_witnessed]
  have root : block.computeMerkleRoot = twin.computeMerkleRoot := congrArg merkleRoot listed
  obtain ⟨pairs, _, blocks⟩ := merkle_root_binds_leaves
  refine ⟨⟨injective, ?_⟩, by decide, rfl, root, ?_⟩
  · rw [Ne, pairs Nat.pair 0 [1, 2, 3] [1, 2, 4] injective rfl]
    decide
  · refine (blocks block twin rfl root).resolve_right ?_
    rw [listed]
    exact not_treesCollide_self _

end Tripled
end Mintage
