import Flowgraph.IndexSet
import Flowgraph.Order.Discovery

/-!
# Natural loops

Each target of a backedge is the header of one loop. Its members are found by walking backward
from the sources of its backedges, up to the header.

The members are in a sparse set over the blocks, which stands for a table with places of 32 bits in
graphs of up to 2 ^ 31 blocks.

## Members

The header is a member from the start and is never walked from, so that the walk cannot leave a loop
whose header dominates its members. If the header does not, because the graph is irreducible, the
walk still stops: it goes on from each block at most once.

## Nesting

Depth and parent are read off the member sets when they are asked for. Of several loops around a
header the parent is the smallest one, and with two of one size the one found first.
-/

namespace Flowgraph

/-- A loop: its header and its members, the header first. -/
structure Loop where
  header : BlockIndex
  members : IndexSet
deriving DecidableEq

namespace Loop

/-- The loop that has its header as its only member, in a graph of `n` blocks. -/
def start (n : Nat) (header : BlockIndex) : Loop :=
  ⟨header, (IndexSet.empty n).insert header⟩

/-- Adds a block to the members and, if it is new, to the blocks still to be walked from. -/
def reach (s : IndexSet × List BlockIndex) (b : BlockIndex) : IndexSet × List BlockIndex :=
  if s.1.contains b then s else (s.1.insert b, b :: s.2)

/-- Walks backward from the blocks in `pending`, latest first, and never through the header. Each
step walks from a different member, so that the number of blocks bounds the steps. -/
def flood (g : Graph) (header : BlockIndex) :
    (steps : Nat) → IndexSet × List BlockIndex → IndexSet
  | 0, s => s.1
  | _ + 1, (members, []) => members
  | steps + 1, (members, b :: pending) =>
    flood g header steps
      (((g.predecessors b).reverse.filter (· ≠ header)).foldl reach (members, pending))

/-- Adds what a backedge brings into its loop. -/
def grow (g : Graph) (l : Loop) (e : Backedge) : Loop :=
  if e.source = l.header then l
  else { l with members := flood g l.header g.blockCount (reach (l.members, []) e.source) }

end Loop

namespace Graph

/-- The loops of a graph, in the order of `Graph.headers`. -/
def loops (g : Graph) : List Loop :=
  g.headers.map fun h ↦
    (g.backedges.filter (·.header = h)).foldl (Loop.grow g) (Loop.start g.blockCount h)

end Graph

/-- The number of loops that contain a block. -/
def loopDepth (loops : List Loop) (b : BlockIndex) : Nat :=
  loops.countP (·.members.contains b)

/-- The number of the smallest other loop that contains the header of loop `l`; of two such loops
of one size the one with the lower number. -/
def loopParent? (loops : List Loop) (l : Nat) : Option Nat :=
  let header? := loops[l]?.map Loop.header
  let around := loops.zipIdx.filter fun (m, i) ↦
    i ≠ l && (header?.map m.members.contains).getD false
  let smaller (best : Option (Nat × Nat)) (m : Loop × Nat) : Option (Nat × Nat) :=
    match best with
    | some (size, i) =>
      if m.1.members.size < size then some (m.1.members.size, m.2) else some (size, i)
    | none => some (m.1.members.size, m.2)
  (around.foldl smaller none).map Prod.snd

end Flowgraph
