import Flowgraph.Order.Layout

/-!
# The special reverse postorder

A graph without loops is ordered by its discovery search alone. Otherwise the loops are laid out
one by one. Either way the order has to reach every block.

## Two ways

The textbook order of a graph without loops needs no layout, and the discovery search has found it
already. The loops come with the order, since the analysis and the reports of a run ask for both. A
block that the entry does not reach is in no order, which is noticed by comparing lengths.
-/

namespace Flowgraph

/-- An order of the blocks of a graph, with the loops it respects. -/
structure Numbering where
  order : List BlockIndex
  loops : List Loop
deriving DecidableEq

namespace Graph

/-- The special reverse postorder of a graph and its loops. -/
def numbering (g : Graph) : Except Breach Numbering := do
  let loops := g.loops
  let order ← if loops.isEmpty then .ok g.discovery.order else g.layout loops
  if order.length ≠ g.blockCount then throw (.orderCovers order.length g.blockCount)
  return ⟨order, loops⟩

/-- The special reverse postorder of a graph. -/
def specialOrder (g : Graph) : Except Breach (List BlockIndex) := do
  return (← g.numbering).order

end Graph

namespace Numbering

/-- The number of the loop that a block heads. -/
def loopOf? (n : Numbering) (b : BlockIndex) : Option Nat :=
  n.loops.findIdx? (·.header = b)

/-- The number of loops around a block. -/
def depth (n : Numbering) (b : BlockIndex) : Nat := loopDepth n.loops b

/-- The number of the innermost loop around another loop. -/
def parent? (n : Numbering) (l : Nat) : Option Nat := loopParent? n.loops l

end Numbering

end Flowgraph
