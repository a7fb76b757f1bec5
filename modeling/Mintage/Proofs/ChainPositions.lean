import Mathlib.Algebra.GroupWithZero.Nat
import Mintage.Proofs.ChainAncestors

/-! Where a header stands in its chain. Its height counts the parents below it, its work adds up what it and they prove
until 256 bits are full, and the header at some height is the one that the difference of the heights leads down to. -/

namespace Mintage

/-- The work that the blocks of some headers prove, however much that is. -/
def totalProof (headers : List HeaderChain) : Nat :=
  (headers.map fun node => blockProof node.header.bits).sum

theorem totalProof_append (first second : List HeaderChain) :
    totalProof (first ++ second) = totalProof first + totalProof second := by
  rw [totalProof, List.map_append, List.sum_append, totalProof, totalProof]

/-- Even for the hardest target, which is one, half of all hashes will do. -/
theorem blockProof_lt (bits : UInt32) : blockProof bits < targetBound := by
  have bound : 1 < targetBound := by decide
  by_cases valid : (CompactTarget.decode bits).valid = true
  · have positive : (CompactTarget.decode bits).target ≠ 0 := by
      simp only [CompactTarget.valid, Bool.and_eq_true, bne_iff_ne] at valid
      exact valid.2
    have quotient := Nat.div_le_self (targetBound - 1 - (CompactTarget.decode bits).target)
      ((CompactTarget.decode bits).target + 1)
    rw [blockProof, if_pos valid]
    omega
  · rw [blockProof, if_neg valid]
    omega

namespace HeaderChain

variable {chain node : HeaderChain}

/-- What so many steps lead to, each from a header to its parent. -/
def descend : (steps : Nat) → HeaderChain → Option HeaderChain
  | 0, chain => some chain
  | steps + 1, chain => chain.parent?.bind (descend steps)

theorem descend_eq_getElem? (steps : Nat) (chain : HeaderChain) : chain.descend steps = chain.ancestors[steps]? := by
  induction steps generalizing chain with
  | zero => cases chain <;> rfl
  | succ steps ih =>
    cases chain with
    | genesis header => rfl
    | extend parent header => exact ih parent

theorem length_ancestors (chain : HeaderChain) : chain.ancestors.length = chain.height + 1 := by
  induction chain with
  | genesis header => rfl
  | extend parent header ih => rw [ancestors, List.length_cons, ih, height_extend]

theorem pairwise_ancestors (chain : HeaderChain) :
    chain.ancestors.Pairwise fun newer older => older ∈ newer.ancestors := by
  induction chain with
  | genesis header => exact List.pairwise_singleton ..
  | extend parent header ih => exact List.pairwise_cons.mpr ⟨fun _ below => List.mem_cons_of_mem _ below, ih⟩

/-- A chain is its newest headers on top of the chain that they leave. -/
theorem exists_back_append {count : Nat} (low : count ≤ chain.height) :
    ∃ first, chain.ancestor? (chain.height - count) = some first ∧
      chain.ancestors = chain.back count ++ first.ancestors := by
  induction chain generalizing count with
  | genesis header =>
    obtain rfl : count = 0 := Nat.le_zero.mp low
    exact ⟨genesis header, rfl, rfl⟩
  | extend parent header ih =>
    cases count with
    | zero => exact ⟨extend parent header, ancestor?_eq_some_iff.mpr ⟨self_mem_ancestors _, rfl⟩, rfl⟩
    | succ count =>
      obtain ⟨first, walk, split⟩ := ih (Nat.le_of_succ_le_succ low)
      refine ⟨first, ?_, ?_⟩
      · rw [height_extend, Nat.succ_sub_succ, ancestor?, if_pos (Nat.sub_le ..), walk]
      · rw [ancestors, back, split, List.cons_append]

theorem ancestor?_eq_getElem? {height : Nat} (low : height ≤ chain.height) :
    chain.ancestor? height = chain.ancestors[chain.height - height]? := by
  obtain ⟨first, walk, split⟩ := exists_back_append (Nat.sub_le chain.height height)
  have passed : (chain.back (chain.height - height)).length = chain.height - height := by
    rw [length_back]
    omega
  rw [Nat.sub_sub_self low] at walk
  rw [walk, split, List.getElem?_append_right (Nat.le_of_eq passed), passed, Nat.sub_self, ← descend_eq_getElem?]
  rfl

theorem isSome_ancestor?_iff {height : Nat} : (chain.ancestor? height).isSome = true ↔ height ≤ chain.height := by
  constructor
  · intro found
    obtain ⟨node, walk⟩ := Option.isSome_iff_exists.mp found
    obtain ⟨older, landed⟩ := ancestor?_eq_some_iff.mp walk
    rw [← landed]
    exact height_le_of_mem_ancestors older
  · intro low
    exact Option.isSome_iff_exists.mpr (exists_ancestor? low)

/-- Stopping at the greatest number once is no different from stopping at every step. -/
theorem work_eq (chain : HeaderChain) : chain.work = min (2 ^ 256 - 1) (totalProof chain.ancestors) := by
  have bound : targetBound = 2 ^ 256 := Nat.one_shiftLeft 256
  induction chain with
  | genesis header =>
    have fits := blockProof_lt header.bits
    have alone : totalProof (genesis header).ancestors = blockProof header.bits := rfl
    have kept : (genesis header).work = blockProof header.bits := rfl
    rw [kept, alone]
    omega
  | extend parent header ih =>
    have split : totalProof (extend parent header).ancestors =
        blockProof header.bits + totalProof parent.ancestors := rfl
    have kept : (extend parent header).work = min (targetBound - 1) (parent.work + blockProof header.bits) := rfl
    rw [kept, split, ih, bound]
    omega

/-- Cumulative work is the sum of the work of the blocks as long as 256 bits hold that. -/
theorem work_eq_totalProof (fits : totalProof chain.ancestors < 2 ^ 256) : chain.work = totalProof chain.ancestors := by
  rw [work_eq]
  omega

theorem totalProof_le_of_mem_ancestors (older : node ∈ chain.ancestors) :
    totalProof node.ancestors ≤ totalProof chain.ancestors := by
  obtain ⟨first, walk, split⟩ := exists_back_append (Nat.sub_le chain.height node.height)
  rw [Nat.sub_sub_self (height_le_of_mem_ancestors older)] at walk
  rw [ancestor?_eq_some_iff.mpr ⟨older, rfl⟩] at walk
  cases walk
  rw [split, totalProof_append]
  omega

theorem work_le_of_mem_ancestors (older : node ∈ chain.ancestors) : node.work ≤ chain.work := by
  have less := totalProof_le_of_mem_ancestors older
  rw [work_eq, work_eq]
  omega

/-- The ancestors of a header are what its parents lead to, step by step. Its height is the number of those below it and
its work the sum over all of them, cut off at 256 bits, so that it never falls along a chain. Every height up to its own
has the ancestor that stands so far from the end, and it makes no difference from which header above it the walk sets
out. -/
theorem headers_are_positioned (chain : HeaderChain) :
    (∀ steps, chain.descend steps = chain.ancestors[steps]?) ∧
      chain.height = chain.ancestors.tail.length ∧
      chain.work = min (2 ^ 256 - 1) (totalProof chain.ancestors) ∧
      chain.ancestors.Pairwise (fun newer older => older.work ≤ newer.work) ∧
      (∀ height, (chain.ancestor? height).isSome = true ↔ height ≤ chain.height) ∧
      (∀ height ≤ chain.height, chain.ancestor? height = chain.ancestors[chain.height - height]?) ∧
      ∀ lower upper, lower ≤ upper → upper ≤ chain.height →
        (chain.ancestor? upper).bind (ancestor? lower) = chain.ancestor? lower := by
  refine ⟨fun steps => descend_eq_getElem? steps chain, ?height, work_eq chain, ?work,
    fun _ => isSome_ancestor?_iff, fun _ low => ancestor?_eq_getElem? low, ?nested⟩
  case height =>
    rw [List.length_tail, length_ancestors, Nat.add_sub_cancel]
  case work =>
    exact (pairwise_ancestors chain).imp work_le_of_mem_ancestors
  case nested =>
    intro lower upper ordered low
    obtain ⟨found, walk⟩ := exists_ancestor? low
    obtain ⟨older, landed⟩ := ancestor?_eq_some_iff.mp walk
    rw [walk, Option.bind_some]
    exact ancestor?_of_mem_ancestors older (landed.symm ▸ ordered)

/-! Headers of the hardest target, of which two prove more work than 256 bits hold. -/
namespace Hardest

def block (time : UInt32) : BlockHeader :=
  { bits := 0x01010000, time }

def first : HeaderChain :=
  .extend (.genesis (block 0)) (block 1)

def last : HeaderChain :=
  .extend (.extend first (block 2)) (block 3)

theorem work_is_full_from_second_header :
    1 ≤ 2 ∧ 2 ≤ last.height ∧ first.work = 2 ^ 256 - 1 ∧ last.work = 2 ^ 256 - 1 ∧ last.ancestor? 1 = some first ∧
      (last.ancestor? 2).bind (ancestor? 1) = some first := by
  have proof (time : UInt32) : blockProof (block time).bits = 2 ^ 255 := by
    change blockProof 0x01010000 = 2 ^ 255
    decide
  obtain ⟨_, _, firstWork, _⟩ := headers_are_positioned first
  obtain ⟨_, _, lastWork, _, _, found, nested⟩ := headers_are_positioned last
  have walk : last.ancestor? 1 = some first := found 1 (by decide)
  refine ⟨by decide, by decide, ?_, ?_, walk, ?_⟩
  · rw [firstWork]
    simp [totalProof, first, ancestors, proof]
  · rw [lastWork]
    simp [totalProof, last, first, ancestors, proof]
  · rw [nested 1 2 (by decide) (by decide), walk]

end Hardest
end HeaderChain
end Mintage
