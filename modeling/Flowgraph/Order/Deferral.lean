import Flowgraph.Graph.Basic

/-!
# Deferred blocks

A deferred block is expected to run rarely. One sweep in block order marks them: the entry is
never deferred, a loop header follows its first forward predecessor, a block with one predecessor
is deferred if that one is or branches to it against its hint, and any other block if all its
predecessors are.

## Order of the blocks

Each block reads the flags of blocks that come before it, which the same sweep has just set. In the
special reverse postorder of a reducible graph every forward predecessor comes before its
successors, so that one sweep is enough. A loop header looks at its first forward predecessor and
not at all of them.
-/

namespace Flowgraph.Graph

def isDeferred (g : Graph) (b : BlockIndex) : Bool :=
  (g.blocks[b]?.map Block.deferred).getD false

/-- Does block `p` end in a branch that is hinted away from block `b`? -/
def hintedAway (g : Graph) (p b : BlockIndex) : Bool :=
  match (g.terminator? p).bind (g.ops[·]?) with
  | some ⟨.branch t f hint, _⟩ =>
    t ≠ f &&
      match hint with
      | .towardTrue => f = b
      | .towardFalse => t = b
      | _ => false
  | _ => false

/-- Should a block be deferred, given the flags of the blocks before it? -/
def deferral (g : Graph) (b : BlockIndex) (blk : Block) : Bool :=
  let preds := g.predecessors b
  if b = 0 then false
  else if blk.isLoop then
    match preds.find? (· < b) with
    | some p => g.isDeferred p
    | none => false
  else
    match preds with
    | [p] => g.isDeferred p || g.hintedAway p b
    | _ => preds.all g.isDeferred

/-- Sets the flag of one block. -/
def deferBlock (g : Graph) (b : BlockIndex) : Graph :=
  { g with blocks := g.blocks.modify b fun blk ↦ { blk with deferred := g.deferral b blk } }

/-- Marks the deferred blocks of a graph in special reverse postorder. -/
def propagateDeferred (g : Graph) : Graph :=
  (List.range g.blockCount).foldl deferBlock g

end Flowgraph.Graph
