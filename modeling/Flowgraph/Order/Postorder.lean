import Flowgraph.Order.Discovery

/-!
# The textbook reverse postorder

The reverse of a depth-first postorder, successors taken in terminator order.
-/

namespace Flowgraph.Graph

/-- Appends to `post` the postorder of what is reached from `b` and not seen yet. -/
def postVisit (g : Graph) : (depth : Nat) → BlockIndex → Array Bool × List BlockIndex →
    Array Bool × List BlockIndex
  | 0, _, s => s
  | depth + 1, b, (seen, post) =>
    let (seen, post) := (g.successors b).foldl
      (fun s c ↦ if s.1[c]? = some false then postVisit g depth c s else s)
      (seen.setIfInBounds b true, post)
    (seen, post ++ [b])

/-- The reverse postorder of the blocks that the entry reaches; there has to be an entry. -/
def reversePostorder (g : Graph) : Except Breach (List BlockIndex) :=
  if g.blockCount = 0 then .error .fault
  else .ok (postVisit g g.blockCount 0 (Array.replicate g.blockCount false, [])).2.reverse

end Flowgraph.Graph
