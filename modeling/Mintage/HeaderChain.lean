import Mintage.Block
import Mintage.Target

/-! Headers in their place in a chain. A chain is its newest header on top of an older chain, so that
forks share what they have in common. -/

namespace Mintage

/-- Height, hash and cumulative work are kept with each header; work stops at the largest 256-bit
number. -/
inductive HeaderChain where
  | genesis (header : BlockHeader)
  | extend (parent : HeaderChain) (header : BlockHeader)
with
  @[computed_field] height : HeaderChain → Nat
    | .genesis _ => 0
    | .extend parent _ => parent.height + 1
  @[computed_field] hash : HeaderChain → Hash256
    | .genesis header => header.hash
    | .extend _ header => header.hash
  @[computed_field] work : HeaderChain → Nat
    | .genesis header => blockProof header.bits
    | .extend parent header => min (targetBound - 1) (parent.work + blockProof header.bits)

namespace HeaderChain

def header : HeaderChain → BlockHeader
  | .genesis header => header
  | .extend _ header => header

def parent? : HeaderChain → Option HeaderChain
  | .genesis _ => none
  | .extend parent _ => some parent

/-- The chain on top of `parent?`, or a new one. -/
def append (parent? : Option HeaderChain) (header : BlockHeader) : HeaderChain :=
  match parent? with
  | none => .genesis header
  | some parent => .extend parent header

/-- Every chain from this one down to genesis. -/
def ancestors : HeaderChain → List HeaderChain
  | .genesis header => [.genesis header]
  | .extend parent header => .extend parent header :: parent.ancestors

/-- The newest `count` of them. -/
def back : (count : Nat) → HeaderChain → List HeaderChain
  | 0, _ => []
  | _ + 1, .genesis header => [.genesis header]
  | count + 1, .extend parent header => .extend parent header :: back count parent

/-- The newest of them that satisfies `wanted`. -/
def find? (wanted : HeaderChain → Bool) : HeaderChain → Option HeaderChain
  | .genesis header => if wanted (.genesis header) then some (.genesis header) else none
  | .extend parent header =>
    if wanted (.extend parent header) then some (.extend parent header) else parent.find? wanted

/-- The one at `height`. -/
def ancestor? (height : Nat) : HeaderChain → Option HeaderChain
  | .genesis header => if height = 0 then some (.genesis header) else none
  | .extend parent header =>
    if height ≤ parent.height then parent.ancestor? height
    else if height = parent.height + 1 then some (.extend parent header)
    else none

/-- The number of headers that the median is taken over. -/
def medianSpan : Nat := 11

/-- The middle one of the newest times, the later one when their number is even. -/
def medianTimePast (chain : HeaderChain) : Nat :=
  let times := ((chain.back medianSpan).map fun node => node.header.time.toNat).mergeSort
  times.getD (times.length / 2) 0

theorem height_of_ancestor? {chain : HeaderChain} {height : Nat} {found : HeaderChain}
    (walk : chain.ancestor? height = some found) : found.height = height := by
  induction chain with
  | genesis header =>
    simp only [ancestor?] at walk
    split at walk
    · cases walk
      simp_all [HeaderChain.height]
    · cases walk
  | extend parent header ih =>
    simp only [ancestor?] at walk
    split at walk
    · exact ih walk
    · split at walk
      · cases walk
        simp_all [HeaderChain.height]
      · cases walk

end HeaderChain
end Mintage
