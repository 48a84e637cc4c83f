import Flowgraph.Liveness.Analysis
import Flowgraph.Rebuild.Assembler

/-!
# Reducers

A graph is rebuilt through a stack of reducers. Each one sees every block and every operation of
the source and either handles it or passes it on; at the bottom, a block is copied once something
refers to it and an operation is copied unchanged.

## Layers

A layer is given the layer below it as a function and decides itself whether to call it. The stack
is a fold over the layers, with the plain copy at its end, so that a stack of any height is one
function from a block or an operation to what stands for it.

## The last step

Blocks of the copy come into being in the order in which something refers to them, and are filled in
the order of their sources. The copy is renumbered by the order of filling, which is the order of
the source. Merges that are left with one predecessor and no phi become plain blocks before that.
-/

namespace Flowgraph

/-- One layer of a rebuilding pass. -/
structure Reducer where
  /-- Is the block copied at all? -/
  block : (next : BlockIndex → Build Bool) → BlockIndex → Build Bool
  /-- What stands for the operation in the output, if anything does. -/
  operation : (next : OpIndex → Build (Option OpIndex)) → OpIndex → Build (Option OpIndex)

namespace Reducer

/-- Passes everything on. -/
def forward : Reducer where
  block next := next
  operation next := next

/-- Drops the operations that are not live and sends resolved jumps straight to their target. -/
def dropDead (live : Array Bool) (rewrites : IndexMap BlockIndex) : Reducer where
  block next := next
  operation next i := do
    let a ← get
    let op ← Build.ofExcept (a.source.op i)
    match (if op.isJump then rewrites.get? i else none) with
    | some target => return some (← Build.emit (.goto (← Build.mapBlock target)))
    | none =>
      if ← Build.ofExcept (Graph.lookup live i) then next i
      else if op.isTerminator then throw (.deadTerminator i (a.current.getD noHandle))
      else return none

/-- Replaces a phi whose inputs are all one value by that value. Loop phis are left alone, as
their inputs are not complete. -/
def forwardPhis : Reducer where
  block next := next
  operation next i := do
    let op ← Build.ofExcept ((← get).source.op i)
    if !op.isPhi then next i
    else
      match ← Build.phiInputs i with
      | (some v :: rest, true) => if rest.all (· = some v) then return some v else next i
      | _ => next i

end Reducer

namespace Build

/-- The whole stack's decision on a block; the first reducer is the outermost. -/
def reduceBlock (reducers : List Reducer) : BlockIndex → Build Bool :=
  reducers.foldr (fun r next ↦ r.block next) wanted

/-- The whole stack's treatment of an operation. -/
def reduceOperation (reducers : List Reducer) : OpIndex → Build (Option OpIndex) :=
  reducers.foldr (fun r next ↦ r.operation next) copyOperation

/-- Copies one operation through the stack and records what stands for it. -/
def copyOp (reducers : List Reducer) (i : OpIndex) : Build Unit := do
  let v ← reduceOperation reducers i
  modify fun a ↦ { a with opMap := a.opMap.setIfInBounds i v }

/-- Copies one block through the stack, unless the stack leaves it out. -/
def copyBlock (reducers : List Reducer) (b : BlockIndex) : Build Unit := do
  if ← reduceBlock reducers b then
    let copy ← mapBlock b
    let a ← get
    let output ← ofExcept (a.output.bind copy)
    set { a with output, filled := a.filled.push copy, current := some b }
    (a.source.span b).toList.forM (copyOp reducers)
    if (← get).output.bound.isSome then throw (.copiedOpen b)

/-- Copies the whole source. -/
def copyGraph (reducers : List Reducer) : Build Graph := do
  let g := (← get).source
  if g.blockCount = 0 then return (← get).output
  let _ ← mapBlock 0
  (List.range g.blockCount).forM (copyBlock reducers)
  completePhis
  let a ← get
  ofExcept (a.output.demoteMerges.reorder a.filled.toList)

end Build

namespace Graph

/-- Rebuilds a graph through a stack of reducers, the outermost first, with their remarks. -/
def rebuildWithRemarks (g : Graph) (reducers : List Reducer) : Except Breach Graph × Array String :=
  let (result, a) := (Build.copyGraph reducers).run (Assembler.start g)
  (result, a.remarks)

/-- Rebuilds a graph through a stack of reducers, the outermost first. -/
def rebuild (g : Graph) (reducers : List Reducer) : Except Breach Graph :=
  (g.rebuildWithRemarks reducers).1

/-- The stack that applies an analysis. -/
def eliminators (analysis : Liveness) (forwardPhis : Bool) : List Reducer :=
  .dropDead analysis.live analysis.rewrites :: (if forwardPhis then [.forwardPhis] else [])

/-- Removes what the liveness analysis finds dead, and forwards phis if asked to. -/
def eliminate (g : Graph) (forwardPhis : Bool) : Except Breach (Graph × Liveness) := do
  let analysis ← g.liveness
  return (← g.rebuild (eliminators analysis forwardPhis), analysis)

end Graph

end Flowgraph
