import Flowgraph.Graph.Reorder

/-!
# Rebuilding a graph

An assembler copies a source graph block by block into a new graph and remembers what became of
each block and operation. Blocks of the copy come into being when something first refers to them.
A phi of a copied block takes its inputs in the order of the predecessors that the copied block
has; a loop phi is completed at the end, when its backedges exist.

## What stands for what

`blockMap` and `opMap` lead from the source to the output, `origin` leads from a block of the output
back to its source. Several operations of the source can be represented by one of the output, since
a reducer may answer with a value that is there already. A block of the source has at most one copy.

## Phis

The predecessors of a copy need not be those of its source: a block can lose edges, and edges can
come to it from elsewhere. A phi therefore asks, for each predecessor of the copy, which block of
the source that one was made from, and takes the input that came from there. Two edges from one
block are told apart by their order.

## Loops

When a loop header is copied its backedges do not exist yet. The phi is emitted with the inputs that
are known, noted in `waiting`, and gets its full list of inputs after the last block.
-/

namespace Flowgraph

/-- A graph under construction and its relation to the source. -/
structure Assembler where
  source : Graph
  output : Graph
  /-- For each operation of the source the one that stands for it. -/
  opMap : Array (Option OpIndex)
  /-- For each block of the source its copy. -/
  blockMap : Array (Option BlockIndex)
  /-- For each block of the output the block that it copies. -/
  origin : Array BlockIndex
  /-- The blocks of the output in the order in which they were filled. -/
  filled : Array BlockIndex
  /-- Loop phis of the output that wait for their backedges, with what they copy. -/
  waiting : Array (OpIndex × OpIndex)
  /-- The block of the source that is being copied. -/
  current : Option BlockIndex
  /-- Remarks made on the way. -/
  remarks : Array String

/-- A step of rebuilding. The assembler outlives a breach, so that its remarks can be read. -/
abbrev Build := ExceptT Breach (StateM Assembler)

namespace Assembler

/-- Nothing is copied yet. -/
def start (g : Graph) : Assembler where
  source := g
  output := .empty g.name
  opMap := Array.replicate g.opCount none
  blockMap := Array.replicate g.blockCount none
  origin := #[]
  filled := #[]
  waiting := #[]
  current := none
  remarks := #[]

end Assembler

namespace Build

/-- The step that succeeds or fails as a given result does. -/
def ofExcept {α : Type} : Except Breach α → Build α
  | .ok a => pure a
  | .error e => throw e

def remark (s : String) : Build Unit :=
  modify fun a ↦ { a with remarks := a.remarks.push s }

/-- Appends an operation to the output block being filled. -/
def emit (op : Operation) : Build OpIndex := do
  let a ← get
  let output ← ofExcept (a.output.addOperation op)
  set { a with output }
  return a.output.opCount

/-- The copy of a block of the source, made on first use. -/
def mapBlock (b : BlockIndex) : Build BlockIndex := do
  let a ← get
  match a.blockMap[b]? with
  | none => throw .fault
  | some (some copy) => return copy
  | some none =>
    let blk ← ofExcept (a.source.block b)
    let output ← ofExcept (a.output.addBlock blk.kind blk.deferred)
    let copy := a.output.blockCount
    set { a with
      output
      blockMap := a.blockMap.setIfInBounds b (some copy)
      origin := a.origin.push b }
    return copy

/-- What stands for an operation of the source, if it was copied already. -/
def mapValue (i : OpIndex) : Build (Option OpIndex) := do
  ofExcept (Graph.lookup (← get).opMap i)

/-- What stands for an input; it has to be copied already. -/
def mapInput (i : OpIndex) : Build OpIndex := do
  match ← mapValue i with
  | some v => return v
  | none => throw (.inputNotEmitted i)

/-- The mapped inputs of a phi of the source, one for each predecessor that its copied block has
so far, and whether the list is complete. A value that is not copied yet is missing. Parallel edges
are matched up in order. -/
def phiInputs (i : OpIndex) : Build (List (Option OpIndex) × Bool) := do
  let a ← get
  let b ← ofExcept (a.source.blockOf i)
  let op ← ofExcept (a.source.op i)
  let blk ← ofExcept (a.source.block b)
  let copy := ((a.blockMap[b]?).join).getD noHandle
  let _ ← ofExcept (a.output.block copy)
  let (_, inputs) ← (a.output.predecessors copy).foldlM
    (fun (unused, inputs) p ↦ do
      let source ← ofExcept (Graph.lookup a.origin p)
      match unused.find? (·.1 = source) with
      | none => throw (.phiWithoutInput i b source)
      | some (q, j) =>
        let input ← ofExcept (Graph.lookup op.inputs.toArray j)
        return (unused.erase (q, j), inputs.push (← mapValue input)))
    ((a.source.predecessors b).zipIdx, #[])
  return (inputs.toList, !blk.isLoop)

/-- Copies an operation unchanged, up to the renaming of what it refers to. -/
def copyOperation (i : OpIndex) : Build (Option OpIndex) := do
  let op ← ofExcept ((← get).source.op i)
  if op.isPhi then
    let (inputs, complete) ← phiInputs i
    let out ← emit { op with inputs := inputs.map (·.getD noHandle) }
    if !complete then modify fun a ↦ { a with waiting := a.waiting.push (out, i) }
    return some out
  else
    return some (← emit (← op.rename mapBlock mapInput))

/-- A block is copied once something refers to its copy. -/
def wanted (b : BlockIndex) : Build Bool := do
  return (((← get).blockMap[b]?).join).isSome

/-- Gives a loop phi of the output the inputs of the phi `i` that it copies. -/
def completePhi (out i : OpIndex) : Build Unit := do
  let (inputs, _) ← phiInputs i
  if inputs.any Option.isNone then throw (.loopPhiNotEmitted i)
  let a ← get
  let output ← ofExcept (a.output.setInputs out (inputs.map (·.getD noHandle)))
  set { a with output }

/-- Gives the waiting loop phis their inputs. -/
def completePhis : Build Unit := do
  (← get).waiting.toList.forM fun (out, i) ↦ completePhi out i

end Build

/-- A merge with one predecessor and no phi is a plain block. -/
def Graph.demoteMerge (g : Graph) (b : BlockIndex) : Graph :=
  { g with
    blocks := g.blocks.modify b fun blk ↦
      let hasPhi := blk.span.toList.any fun i ↦ (g.ops[i]?.map Operation.isPhi).getD false
      if blk.isMerge && (g.predecessors b).length = 1 && !hasPhi then { blk with kind := .plain }
      else blk }

/-- Turns the merges that have become plain blocks into such. -/
def Graph.demoteMerges (g : Graph) : Graph :=
  (List.range g.blockCount).foldl Graph.demoteMerge g

end Flowgraph
