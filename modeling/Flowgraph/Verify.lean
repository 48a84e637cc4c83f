import Flowgraph.Graph.Violation
import Flowgraph.Order.Discovery

/-!
# Verification

A graph is fit for the passes if it has no structural violation, every block is reachable from the
entry, and the loop blocks are exactly the targets of the backedges. A graph that will not be
renumbered also has to be in reverse postorder already: an edge goes to the same or to an earlier
block exactly if it is a backedge. The checks come in three groups, and a group is reported only if
the ones before it find nothing.

## Why groups

A search from the entry follows terminators, so it means little in a graph whose blocks do not end
in one. In the same way the targets of backedges mean little where blocks are out of reach. A later
group is therefore silent while an earlier one has something to say.
-/

namespace Flowgraph

/-- A reason why a graph is not fit for the passes. -/
inductive Problem where
  | violation (v : Violation)
  | unreachable (b : BlockIndex)
  | backedgeTarget (b source : BlockIndex) (kind : BlockKind)
  | noBackedge (b : BlockIndex)
  | notOrdered (source target : BlockIndex)
deriving DecidableEq

def Problem.message : Problem → String
  | .violation v => v.message
  | .unreachable b => s!"b{b}: unreachable from entry"
  | .backedgeTarget b p k =>
    s!"{b.text}: target of backedge from {p.text} has kind {k.text}, want loop"
  | .noBackedge b => s!"{b.text}: loop block has no backedge"
  | .notOrdered b s => s!"{b.text} -> {s.text}: graph is not in reverse postorder"

/-- The wording of several problems, one a line. -/
def Problem.messages (ps : List Problem) : String :=
  "\n".intercalate (ps.map Problem.message)

namespace Graph

/-- The blocks that the entry does not reach. -/
def unreachableProblems (g : Graph) : List Problem :=
  let progress := g.discovery.progress
  (List.range g.blockCount).filterMap fun b ↦
    if progress[b]? = some .done then none else some (.unreachable b)

/-- The blocks whose kind does not tell whether a backedge leads to them. -/
def loopKindProblems (g : Graph) : List Problem :=
  let backedges := g.backedges
  g.blocks.toList.zipIdx.filterMap fun (blk, b) ↦
    match backedges.find? (·.header = b) with
    | some e => if blk.isLoop then none else some (.backedgeTarget b e.source blk.kind)
    | none => if blk.isLoop then some (.noBackedge b) else none

/-- The edges against reverse postorder. -/
def orderProblems (g : Graph) : List Problem :=
  let backedges := g.backedges
  (List.range g.blockCount).flatMap fun b ↦
    (g.successors b).filterMap fun s ↦
      if backedges.contains ⟨b, s⟩ = decide (s ≤ b) then none else some (.notOrdered b s)

/-- The problems of a graph; with `ordered`, it has to be in reverse postorder. -/
def problems (g : Graph) (ordered : Bool) : List Problem :=
  match g.violations with
  | v :: vs => (v :: vs).map .violation
  | [] =>
    match g.unreachableProblems with
    | p :: ps => p :: ps
    | [] => g.loopKindProblems ++ (if ordered then g.orderProblems else [])

end Graph

end Flowgraph
