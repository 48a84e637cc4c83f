import Flowgraph.Index

/-!
# Where control goes

What the liveness analysis knows about control that enters a block: nothing yet, that it only
passes through to one block, or that the block does something of its own. The three levels form a
lattice, and `join` is its least upper bound.

## Use

The control state of a block answers one question: if control enters the block, which block is the
first to do something? A block that does nothing passes the question on to the one block that
follows, and two different answers below a branch make the branch itself something that is done.
-/

namespace Flowgraph

/-- Where control goes once it enters a block. -/
inductive Control where
  /-- Nothing is known to be reached. -/
  | unreachable
  /-- Control only passes through to a block. -/
  | passes (target : BlockIndex)
  /-- The block cannot be skipped. -/
  | stays
deriving DecidableEq

namespace Control

/-- The least upper bound. -/
def join : Control → Control → Control
  | .unreachable, c => c
  | c, .unreachable => c
  | .passes a, .passes b => if a = b then .passes a else .stays
  | _, _ => .stays

/-- The block that control passes through to. -/
def target? : Control → Option BlockIndex
  | .passes b => some b
  | _ => none

/-- The name of a state. -/
def text : Control → String
  | .unreachable => "unreachable"
  | .passes b => s!"block({b.text})"
  | .stays => "not-eliminatable"

end Control

end Flowgraph
