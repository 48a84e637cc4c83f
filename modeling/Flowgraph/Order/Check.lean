import Flowgraph.Graph.Basic

/-!
# Checks on orders and liveness

What an order of blocks, a loop inside it and a set of live operations have to satisfy, with the
first place where each fails.
-/

namespace Flowgraph

/-- How an order or a set of operations fails a check. -/
inductive CheckFailure where
  | orderLength (length want : Int)
  | outOfRange (position : Nat) (b : BlockIndex)
  | repeated (position : Nat) (b : BlockIndex)
  | spread (header : BlockIndex) (count : Nat) (lo hi : Int)
  | headerPosition (header : BlockIndex) (position lo : Int)
  | backward (source target : BlockIndex) (order : List BlockIndex)
  | deadInput (op input : OpIndex)
deriving DecidableEq

def CheckFailure.message : CheckFailure → String
  | .orderLength m n => s!"order has {m} entries, want {n}"
  | .outOfRange p b => s!"position {p}: block {b.text} out of range"
  | .repeated p b => s!"position {p}: block {b.text} appears twice"
  | .spread h n lo hi => s!"loop {h.text}: {n} members spread over positions [{lo},{hi}]"
  | .headerPosition h p lo => s!"loop {h.text}: header at position {p}, range starts at {lo}"
  | .backward b s order =>
    s!"edge {b.text} -> {s.text} goes backward in ["
      ++ " ".intercalate (order.map BlockIndex.text) ++ "]"
  | .deadInput i input => s!"{i.text} is live but its input {input.text} is dead"

/-- The last position of a block in an order; a block that is not there counts as first. -/
def positionIn (order : List BlockIndex) (b : BlockIndex) : Nat :=
  ((order.zipIdx.reverse.find? (·.1 = b)).map Prod.snd).getD 0

/-- Does the order hold each of `n` blocks once? -/
def checkPermutation (order : List BlockIndex) (n : Int) : Option CheckFailure :=
  if (order.length : Int) ≠ n then some (.orderLength order.length n)
  else
    order.zipIdx.findSome? fun (b, pos) ↦
      if n ≤ b then some (.outOfRange pos b)
      else if (order.take pos).contains b then some (.repeated pos b)
      else none

/-- Do the members of a loop stand together in the order, the header first? -/
def checkContiguous (order : List BlockIndex) (header : BlockIndex) (members : List BlockIndex) :
    Option CheckFailure :=
  let place (b : BlockIndex) : Int := positionIn order b
  let lo := (members.map place).foldl min (order.length : Int)
  let hi := (members.map place).foldl max (-1)
  if hi - lo + 1 ≠ members.length then some (.spread header members.length lo hi)
  else if place header ≠ lo then some (.headerPosition header (place header) lo)
  else none

/-- Does every edge go forward in the order, unless it leads to one of the headers? -/
def Graph.checkForward (g : Graph) (order headers : List BlockIndex) : Option CheckFailure :=
  (List.range g.blockCount).findSome? fun b ↦
    (g.successors b).findSome? fun s ↦
      if positionIn order b < positionIn order s || headers.contains s then none
      else some (.backward b s order)

/-- Is every input of a live operation live? -/
def Graph.checkClosure (g : Graph) (live : OpIndex → Bool) : Option CheckFailure :=
  g.ops.toList.zipIdx.findSome? fun (op, i) ↦
    if live i then (op.inputs.find? (!live ·)).map (.deadInput i) else none

end Flowgraph
