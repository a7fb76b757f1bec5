import Mintage.Hash

/-! Merkle roots. A level with an odd number of nodes pairs its last node with itself; the tree is
built over any pairing, so that its shape can be studied apart from the hash. -/

namespace Mintage.Merkle

variable {α : Type}

/-- The level above. -/
def parents (pair : α → α → α) : List α → List α
  | [] => []
  | [last] => [pair last last]
  | left :: right :: rest => pair left right :: parents pair rest

theorem length_parents (pair : α → α → α) (level : List α) :
    (parents pair level).length = (level.length + 1) / 2 := by
  fun_induction parents pair level with
  | case1 => simp
  | case2 => simp
  | case3 left right rest ih =>
    simp only [List.length_cons, ih]
    omega

def root (pair : α → α → α) (empty : α) : List α → α
  | [] => empty
  | [top] => top
  | first :: second :: rest => root pair empty (parents pair (first :: second :: rest))
termination_by level => level.length
decreasing_by
  rw [length_parents]
  simp only [List.length_cons]
  omega

end Mintage.Merkle

namespace Mintage

def hashPair (left right : Hash256) : Hash256 :=
  sha256d (left.toBytes ++ right.toBytes)

/-- The root of an empty list is zero. -/
def merkleRoot (leaves : List Hash256) : Hash256 :=
  Merkle.root hashPair .zero leaves

end Mintage
