import Flowgraph.Order.Loops

/-!
# Layout of loops

A second depth-first search lays the blocks out so that every loop is contiguous, its header
first. While a loop is open, an edge that leaves it is parked at the loop; the parked edges are
followed once the body of the loop is laid out, as if they left the loop that encloses it. The
body then goes in front of what they lead to.

## Parking

Without parking, a block behind a loop could be laid out in the middle of it, whenever an exit is
followed before the rest of the body. A parked edge waits at the loop it leaves. When the loop is
closed its parked edges are followed from the enclosing loop, which may park them once more.

## Headers

A header closes its loop when everything inside it is laid out, and the loops that are open form a
stack. The entry is visited with an empty stack and so cannot close a loop. A graph whose entry is a
header is refused before the search begins.
-/

namespace Flowgraph

/-- The state of the layout. -/
structure Layout where
  progress : Array Progress
  /-- What is laid out so far of the innermost open loop, or of the whole graph. -/
  order : List BlockIndex
  /-- The open loops by number, innermost first. -/
  openLoops : List Nat
  /-- The targets of the edges that leave each loop, in the order in which they were parked. -/
  parked : Array (List BlockIndex)
deriving DecidableEq

namespace Layout

/-- Nothing is laid out yet. -/
def start (blocks loops : Nat) : Layout :=
  ⟨Array.replicate blocks .fresh, [], [], Array.replicate loops []⟩

def mark (s : Layout) (b : BlockIndex) (p : Progress) : Layout :=
  { s with progress := s.progress.setIfInBounds b p }

/-- Parks the target of an edge that leaves loop `l`. -/
def park (s : Layout) (l : Nat) (b : BlockIndex) : Layout :=
  { s with parked := s.parked.modify l (· ++ [b]) }

/-- Follows an edge to `c`: a block that was reached before is passed over, one outside the
innermost open loop is parked, and any other one is visited. -/
def follow (loops : List Loop) (visit : BlockIndex → Layout → Layout) (s : Layout)
    (c : BlockIndex) : Layout :=
  match s.progress[c]?, s.openLoops with
  | some .fresh, [] => visit c s
  | some .fresh, l :: _ =>
    if (loops[l]?.map (·.members.contains c)).getD false then visit c s else s.park l c
  | _, _ => s

/-- Lays out a fresh block and what is reached from it. A path of active blocks is no longer than
the number of blocks, which bounds the depth. -/
def visit (g : Graph) (loops : List Loop) : (depth : Nat) → BlockIndex → Layout → Layout
  | 0, _, s => s
  | depth + 1, b, s =>
    let next := follow loops (visit g loops depth)
    match loops.findIdx? (·.header = b) with
    | none =>
      let below := (g.successors b).foldl next (s.mark b .active)
      { below.mark b .done with order := b :: below.order }
    | some l =>
      let inside := (g.successors b).foldl next
        { s.mark b .active with order := [], openLoops := l :: s.openLoops }
      let closed := { inside.mark b .done with order := s.order, openLoops := s.openLoops }
      let outside := (closed.parked[l]?.getD []).foldl next closed
      { outside with order := b :: inside.order ++ outside.order }

end Layout

/-- The layout of a graph with loops. No loop can be open before the entry, so that an entry that
is a header itself cannot be closed. -/
def Graph.layout (g : Graph) (loops : List Loop) : Except Breach (List BlockIndex) :=
  if loops.any (·.header = 0) then .error (.loopStackCorrupted 0)
  else .ok (Layout.visit g loops g.blockCount 0 (Layout.start g.blockCount loops.length)).order

end Flowgraph
