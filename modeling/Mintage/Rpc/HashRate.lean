import Mintage.HeaderChain

/-! The rate at which a network hashes, estimated from the work and the times of its last blocks. -/

namespace Mintage

namespace HashRate

/-- The block that an estimate ends at: the one at `height` if it lies below the tip, else the tip. -/
def endBlock (tip : HeaderChain) (height : Int) : HeaderChain :=
  if 0 ≤ height ∧ height < tip.height then (tip.ancestor? height.toNat).getD tip else tip

/-- The number of blocks looked at, at most the height. Without a positive `lookup` they are the ones since
the last retarget; an interval of more than sixty-three bits counts as negative. -/
def blockCount (last : HeaderChain) (interval : UInt64) (lookup : Int) : Nat :=
  let wanted := if lookup ≤ 0 then (last.height : Int).tmod (max interval 1).toInt64.toInt + 1 else lookup
  (min wanted last.height).toNat

/-- The smallest and the largest time of some headers. -/
def timeRange (headers : List HeaderChain) : Nat × Nat :=
  headers.foldl (fun (least, most) node => (min least node.header.time.toNat, max most node.header.time.toNat))
    (UInt32.size - 1, 0)

/-- Work over seconds, of the work only the low sixty-four bits; nothing where the times do not differ. -/
def ratio? (last : HeaderChain) (count : Nat) : Option (UInt64 × Nat) := do
  let (least, most) := timeRange (last.back (count + 1))
  guard (least ≠ most)
  let first ← last.ancestor? (last.height - count)
  return (.ofNat last.work - .ofNat first.work, most - least)

end HashRate

def networkHashRate (tip : Option HeaderChain) (interval : UInt64) (lookup height : Int) : Float :=
  match tip with
  | none => 0
  | some tip =>
    let last := HashRate.endBlock tip height
    if last.height = 0 then 0
    else
      match HashRate.ratio? last (HashRate.blockCount last interval lookup) with
      | none => 0
      | some (work, seconds) => work.toFloat / seconds.toFloat

end Mintage
