import Flowgraph.Graph.Basic

/-!
# Discovery of backedges

A depth-first search from the entry, which follows the true side of a branch before the false one.
A block is `fresh` until the search reaches it, `active` while the search is below it and `done`
afterwards. An edge to an active block is a backedge, and its target a loop header. The finished
blocks, latest first, are a reverse postorder.

## Depth

The recursion goes down by one for each block on the path from the entry, and a path of active
blocks has no repetition. The number of blocks is therefore enough depth, and the value at depth
zero is never looked at; that is proved beside the invariant of the search. Recursion on a number,
and not on the graph, lets a search be evaluated.

## Edges

The search records a backedge each time it follows an edge to an active block. Two parallel edges to
a header are two backedges, with the same ends.
-/

namespace Flowgraph

/-- How far a search is done with a block. -/
inductive Progress where
  | fresh
  | active
  | done
deriving DecidableEq

/-- An edge to a block that is active when the search follows the edge. -/
structure Backedge where
  source : BlockIndex
  header : BlockIndex
deriving DecidableEq

/-- The state of the search. -/
structure Discovery where
  progress : Array Progress
  /-- The finished blocks, latest first. -/
  order : List BlockIndex
  /-- The backedges in the order in which they were found. -/
  backedges : Array Backedge
deriving DecidableEq

namespace Discovery

/-- Nothing is found yet in a graph of `n` blocks. -/
def start (n : Nat) : Discovery := ⟨Array.replicate n .fresh, [], #[]⟩

def mark (s : Discovery) (b : BlockIndex) (p : Progress) : Discovery :=
  { s with progress := s.progress.setIfInBounds b p }

/-- Finishes a block: it comes before all blocks that are finished already. -/
def finish (s : Discovery) (b : BlockIndex) : Discovery :=
  { s.mark b .done with order := b :: s.order }

/-- Visits a fresh block and everything fresh below it. A path of active blocks is no longer than
the number of blocks, which bounds the depth. -/
def visit (g : Graph) : (depth : Nat) → BlockIndex → Discovery → Discovery
  | 0, _, s => s
  | depth + 1, b, s =>
    let below := (g.successors b).foldl
      (fun s c ↦
        match s.progress[c]? with
        | some .fresh => visit g depth c s
        | some .active => { s with backedges := s.backedges.push ⟨b, c⟩ }
        | _ => s)
      (s.mark b .active)
    below.finish b

end Discovery

namespace Graph

/-- The search from the entry of a graph. -/
def discovery (g : Graph) : Discovery :=
  let s := Discovery.start g.blockCount
  if g.blockCount = 0 then s else Discovery.visit g g.blockCount 0 s

/-- The backedges of a graph in the order in which the search finds them. -/
def backedges (g : Graph) : List Backedge := g.discovery.backedges.toList

/-- The targets of the backedges, each once, in the order in which the search finds them. The
position of a header in this list is the number of its loop. -/
def headers (g : Graph) : List BlockIndex := (g.backedges.map Backedge.header).eraseDups

end Graph

end Flowgraph
