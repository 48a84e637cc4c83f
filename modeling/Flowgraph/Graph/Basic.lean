import Flowgraph.Block
import Flowgraph.Breach
import Flowgraph.Operation

/-!
# Graphs

A graph owns the operations and blocks of one function. Blocks are added empty. Binding a block
makes it the one that receives operations; a terminator closes it and records one edge for each
of its targets. Edges are kept in the order in which their terminators were added, the true edge
of a branch before the false one, and the predecessors of a block are read off that list. This is
the order of the inputs of every phi.

The number of an edge is its place in the list. Where edges are kept as records with links of 32
bits, the records read like the list as long as there are at most 2 ^ 31 edges.

## What is kept and what is read off

A graph keeps the range of each block, the block of each operation and the edges. Successors and
predecessors are not kept with the blocks: the successors are those of the terminator, and the
predecessors are the sources of the edges with the block as their target. The block of an operation
follows from the ranges too, but is kept in a table of its own, since rebuilding asks for it at
every input.

## Breaches

Every function that can be called wrongly gives a graph or a `Breach`. A breach takes the place of
the graph: what the call had done before it stopped is not kept.
-/

namespace Flowgraph

/-- A control-flow edge. -/
structure Edge where
  source : BlockIndex
  target : BlockIndex
deriving DecidableEq

/-- The blocks and operations of one function. -/
structure Graph where
  name : ByteArray
  ops : Array Operation
  /-- The block of each operation. -/
  owners : Array BlockIndex
  blocks : Array Block
  /-- The edges in the order in which their terminators were added. -/
  edges : Array Edge
  /-- The block that receives operations. -/
  bound : Option BlockIndex
deriving DecidableEq

namespace Graph

/-- The graph without blocks. -/
def empty (name : ByteArray) : Graph := ⟨name, #[], #[], #[], #[], none⟩

def blockCount (g : Graph) : Nat := g.blocks.size

def opCount (g : Graph) : Nat := g.ops.size

/-- The entry is the first block. -/
def entry? (g : Graph) : Option BlockIndex :=
  if g.blocks.isEmpty then none else some 0

/-! ## Reading -/

def op (g : Graph) (i : OpIndex) : Except Breach Operation :=
  match g.ops[i]? with
  | some op => .ok op
  | none => .error (.opOutOfRange i g.opCount)

def block (g : Graph) (b : BlockIndex) : Except Breach Block :=
  match g.blocks[b]? with
  | some blk => .ok blk
  | none => .error (.blockOutOfRange b g.blockCount)

/-- The block that holds an operation. -/
def blockOf (g : Graph) (i : OpIndex) : Except Breach BlockIndex :=
  match g.owners[i]? with
  | some b => .ok b
  | none => .error (.opOutOfRange i g.owners.size)

/-- The operations of a block; a missing block has none. -/
def span (g : Graph) (b : BlockIndex) : Span :=
  match g.blocks[b]? with
  | some blk => blk.span
  | none => .empty

/-- The last operation of a block. -/
def terminator? (g : Graph) (b : BlockIndex) : Option OpIndex := (g.span b).last?

/-- The successors of a block, the true target of a branch before the false one. -/
def successors (g : Graph) (b : BlockIndex) : List BlockIndex :=
  match (g.terminator? b).bind (g.ops[·]?) with
  | some op => op.successors
  | none => []

/-- The edges into a block by number, oldest first. -/
def incoming (g : Graph) (b : BlockIndex) : List Nat :=
  (List.range g.edges.size).filter fun e ↦ (g.edges[e]?.map Edge.target) == some b

/-- The predecessors of a block in edge order. -/
def predecessors (g : Graph) (b : BlockIndex) : List BlockIndex :=
  (g.edges.toList.filter (·.target == b)).map Edge.source

/-- The edge into the same block that was added just before edge `e`. It is what the link of a
record stands for if its number fits into 32 bits. -/
def previousEdge? (g : Graph) (e : Nat) : Option Nat :=
  match g.edges[e]? with
  | some edge => ((g.incoming edge.target).filter (· < e)).getLast?
  | none => none

def deferredCount (g : Graph) : Nat := g.blocks.countP (·.deferred)

/-! ## Building -/

/-- Appends an empty block. -/
def addBlock (g : Graph) (kind : BlockKind) (deferred : Bool) : Except Breach Graph :=
  if noHandle ≤ g.blockCount then .error (.tooManyBlocks g.blockCount)
  else .ok { g with blocks := g.blocks.push ⟨kind, deferred, none⟩ }

/-- Makes `b` the block that receives operations. It has to be empty, and the block bound before
has to be terminated. -/
def bind (g : Graph) (b : BlockIndex) : Except Breach Graph :=
  match g.bound with
  | some current => .error (.bindWhileOpen b current)
  | none => do
    let blk ← g.block b
    if blk.span?.isSome then .error (.alreadyBound b)
    else .ok { g with bound := some b }

/-- Records an edge; its target has to exist. -/
def addEdge (source : BlockIndex) (g : Graph) (target : BlockIndex) : Except Breach Graph := do
  let _ ← g.block target
  return { g with edges := g.edges.push ⟨source, target⟩ }

/-- Appends an operation to the bound block. A terminator closes the block and records its
edges. -/
def addOperation (g : Graph) (op : Operation) : Except Breach Graph :=
  match g.bound with
  | none => .error (.addOutsideBlock op.action.kindText)
  | some b =>
    if noHandle ≤ g.opCount then .error (.tooManyOps g.opCount)
    else
      let g' := { g with
        ops := g.ops.push op
        owners := g.owners.push b
        blocks := g.blocks.modify b (·.extend g.opCount) }
      if op.isTerminator then op.successors.foldlM (addEdge b) { g' with bound := none }
      else .ok g'

/-- Adds a list of operations to the bound block. -/
def addOperations (g : Graph) (ops : List Operation) : Except Breach Graph :=
  ops.foldlM addOperation g

/-! ## Adjusting -/

/-- Sets the deferred flag of a block. -/
def setDeferred (g : Graph) (b : BlockIndex) (deferred : Bool) : Except Breach Graph := do
  let _ ← g.block b
  return { g with blocks := g.blocks.modify b ({ · with deferred }) }

def setKind (g : Graph) (b : BlockIndex) (kind : BlockKind) : Except Breach Graph := do
  let _ ← g.block b
  return { g with blocks := g.blocks.modify b ({ · with kind }) }

def setInputs (g : Graph) (i : OpIndex) (inputs : List OpIndex) : Except Breach Graph := do
  let _ ← g.op i
  return { g with ops := g.ops.modify i ({ · with inputs }) }

end Graph

end Flowgraph
