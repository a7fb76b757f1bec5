import Mintage.Block.Record
import Mintage.HeaderChain

/-! Chains for trying things out, written as runs of headers at regular times. -/

namespace Mintage

/-- The bits of the easiest target. -/
def easyBits : UInt32 := 0x207fffff

/-- Some headers in a row, `spacing` seconds apart, modulo the word that holds a time. -/
structure HeaderRun where
  count : Nat
  /-- The time of the first, if it does not follow the header before it. -/
  start : Option UInt32
  spacing : UInt32
  header : BlockHeader

namespace HeaderRun

/-- Appends `count` headers, the first of them at `time`. -/
def appendTo (header : BlockHeader) (spacing : UInt32) :
    (count : Nat) → (time : UInt32) → Array HeaderChain → Array HeaderChain
  | 0, _, nodes => nodes
  | count + 1, time, nodes =>
    let previous := (nodes.back?.map HeaderChain.hash).getD .zero
    appendTo header spacing count (time + spacing)
      (nodes.push (.append nodes.back? { header with previous, time }))

def extend (run : HeaderRun) (nodes : Array HeaderChain) : Array HeaderChain :=
  let last := (nodes.back?.map fun node => node.header.time).getD 0
  appendTo run.header run.spacing run.count (run.start.getD (last + run.spacing)) nodes

end HeaderRun

instance : FromJson HeaderRun where
  ofJson json := return {
    count := ← json.field "n" 1
    start := ← json.optional UInt32 "t"
    spacing := (← json.field "dt" (0 : Int64)).toUInt64.toUInt32
    header := {
      version := ← json.field "v" 1
      bits := ← json.field "bits" easyBits
      nonce := ← json.field "nonce" 0 } }

/-- Branches in the order in which they were written, each with its nodes from genesis up. -/
structure HeaderForest where
  branches : Array (Array HeaderChain)

namespace HeaderForest

/-- The nodes up to a height on an earlier branch. -/
def fork (forest : HeaderForest) : List Nat → Except RecordError (Array HeaderChain)
  | [branch, height] => do
    let nodes ← Json.wellFormed forest.branches[branch]?
    if height < nodes.size then pure (nodes.extract 0 (height + 1)) else throw .malformed
  | _ => throw .malformed

def grow (forest : HeaderForest) (json : Json) : Except RecordError HeaderForest := do
  let origin ← json.optional (List Nat) "from"
  let nodes ← (origin.map forest.fork).getD (pure #[])
  let runs ← json.field "runs" ([] : List HeaderRun)
  return ⟨forest.branches.push (runs.foldl (fun nodes run => run.extend nodes) nodes)⟩

/-- The node that `c` and `h` name: by branch and height, the last one if there is no height, none if that is
null. A forest without branches has no nodes to name. -/
def pick (forest : HeaderForest) (json : Json) : Except RecordError (Option HeaderChain) :=
  match json.field? "h" with
  | some .null => pure none
  | height =>
    if forest.branches.isEmpty then pure none
    else do
      let nodes ← Json.wellFormed forest.branches[← json.field "c" (0 : Nat)]?
      match height with
      | none => pure nodes.back?
      | some height => return some (← Json.wellFormed nodes[(← FromJson.ofJson height : Nat)]?)

end HeaderForest

instance : FromJson HeaderForest where
  ofJson json := do (← FromJson.ofJson json : List Json).foldlM HeaderForest.grow ⟨#[]⟩

instance : ToJson HeaderChain where
  toJson node := .object [
    ("height", toJson node.height), ("hash", toJson node.hash), ("work", toJson (targetHex node.work)),
    ("time", toJson node.header.time), ("mtp", toJson node.medianTimePast),
    ("prev", toJson (node.parent?.map HeaderChain.height))]

end Mintage
