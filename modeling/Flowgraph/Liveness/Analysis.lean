import Flowgraph.Graph.Basic
import Flowgraph.IndexMap
import Flowgraph.Liveness.Control

/-!
# Liveness analysis

The analysis walks a graph in special reverse postorder backward, block by block and operation by
operation. It finds the operations whose values are needed, the control state of each block, and
the jumps that can go straight to another block because nothing on the way is needed.

A loop body is walked again when its header turns out to be needed, or when an operation in it
becomes live after it was passed. Every such rewind marks an operation or a header for good, which
bounds the number of steps.

The rewrites are in a sparse map over the operations, which stands for a table with places of 32
bits in graphs of up to 2 ^ 31 operations.

## One walk

Values and control are found together. A jump is live if control cannot pass on behind it, its
inputs are live with it, and a live operation stops control from passing through its block. A dead
jump that passes control on to one block is kept in `rewrites` with that block. It is taken out
again if a later walk finds the jump live.

## Broken preconditions

A use of a removed operation stops the analysis in the block at hand. The blocks walked before it
are kept in the outcome, as a trace shows them.
-/

namespace Flowgraph

/-- The state of the analysis. -/
structure Liveness where
  /-- Which operations are live. -/
  live : Array Bool
  /-- The control state of each block. -/
  control : Array Control
  /-- The dead jumps with the block that each can jump to directly. -/
  rewrites : IndexMap BlockIndex
  /-- No call was seen. -/
  leaf : Bool
  /-- The blocks below this one are still to be walked. -/
  pending : Nat
  /-- The walked blocks with the control state each was left in, latest first. -/
  walked : List (BlockIndex × Control)

namespace Liveness

/-- Nothing is live yet. -/
def start (g : Graph) : Liveness where
  live := Array.replicate g.opCount false
  control := Array.replicate g.blockCount .unreachable
  rewrites := .empty g.opCount
  leaf := true
  pending := g.blockCount
  walked := []

def isLive (s : Liveness) (i : OpIndex) : Bool := s.live[i]?.getD false

def liveCount (s : Liveness) : Nat := s.live.countP id

/-- The number of walked blocks, with those that were walked again. -/
def visits (s : Liveness) : Nat := s.walked.length

def controlOf (s : Liveness) (b : BlockIndex) : Control := s.control[b]?.getD .unreachable

/-- Walks again from block `b` downward. -/
def rewind (s : Liveness) (b : BlockIndex) : Liveness :=
  { s with pending := max s.pending (b + 1) }

/-- Marks an input of operation `user` in block `b` live. If it was walked before its user, the
walk is rewound to its block. -/
def markInput (g : Graph) (b : BlockIndex) (user : OpIndex) (s : Liveness) (input : OpIndex) :
    Except Breach Liveness :=
  match s.live[input]? with
  | none => .error .fault
  | some true => .ok s
  | some false => do
    let s := { s with live := s.live.setIfInBounds input true }
    let home ← g.blockOf input
    return if b < home ∨ (home = b ∧ user < input) then s.rewind home else s

/-- What is known while the operations of one block are walked, last to first. -/
structure Walk where
  state : Liveness
  /-- Where control goes from the operation walked last. -/
  control : Control
  /-- A live phi was seen. -/
  livePhi : Bool

/-- Is operation `i` live, and which jump does it become? The control state is the one behind
it. -/
def judge (s : Liveness) (control : Control) (i : OpIndex) (op : Operation) : Bool × Liveness :=
  if op.isJump then
    match control with
    | .stays => (true, { s with rewrites := s.rewrites.erase i })
    | .passes t => (s.isLive i, { s with rewrites := s.rewrites.insert i t })
    | .unreachable => (s.isLive i, s)
  else (op.isRequired || s.isLive i, s)

/-- Walks one operation of block `b`. -/
def walkOp (g : Graph) (b : BlockIndex) (w : Walk) (i : OpIndex) : Except Breach Walk := do
  let op ← g.op i
  match op.action with
  | .dead => if w.state.isLive i then throw (.removedStillUsed i b) else return w
  | _ =>
    let s := match op.action with
      | .call _ => { w.state with leaf := false }
      | _ => w.state
    let livePhi := w.livePhi || (op.isPhi && s.isLive i)
    let (live, s) := judge s w.control i op
    if !live then return ⟨s, w.control, livePhi⟩
    else
      let s ← op.inputs.foldlM (markInput g b i) { s with live := s.live.setIfInBounds i true }
      return ⟨s, .stays, livePhi⟩

/-- The latest block among `b` and its predecessors. -/
def latestPredecessor (g : Graph) (b : BlockIndex) : BlockIndex :=
  (g.predecessors b).foldl max b

/-- The control state of a block, from the state in front of its first operation. -/
def settle (b : BlockIndex) (blk : Block) (control : Control) (livePhi : Bool) : Control :=
  if blk.isLoop then .stays
  else if blk.isMerge && !livePhi && control.target?.isNone then .passes b
  else control

def walkBlock (g : Graph) (s : Liveness) (b : BlockIndex) : Except Breach Liveness := do
  let blk ← g.block b
  let after := (g.successors b).foldl (fun c t ↦ c.join (s.controlOf t)) .unreachable
  let w ← blk.span.toList.reverse.foldlM (walkOp g b) ⟨s, after, false⟩
  let control := settle b blk w.control w.livePhi
  let s :=
    if blk.isLoop && w.state.controlOf b ≠ control then w.state.rewind (latestPredecessor g b)
    else w.state
  return { s with
    control := s.control.setIfInBounds b control
    walked := (b, control) :: s.walked }

/-- Walks the block just below the pending ones. -/
def step (g : Graph) (s : Liveness) : Except Breach Liveness :=
  walkBlock g { s with pending := s.pending - 1 } (s.pending - 1)

/-- How an analysis ended: the state after the last block that was walked to its end, and what
stopped it, if anything did. -/
structure Outcome where
  state : Liveness
  breach? : Option Breach

/-- Walks until nothing is pending. -/
def run (g : Graph) : (steps : Nat) → Liveness → Outcome
  | 0, s => ⟨s, none⟩
  | steps + 1, s =>
    if s.pending = 0 then ⟨s, none⟩
    else
      match step g s with
      | .ok s' => run g steps s'
      | .error e => ⟨s, some e⟩

/-- A bound on the number of steps: each sweep walks every block at most once, and each rewind
marks an operation or a header for good. -/
def stepBound (g : Graph) : Nat :=
  (g.blockCount + 1) * (g.opCount + g.blockCount + 1)

end Liveness

namespace Graph

/-- The liveness analysis of a graph, with the blocks walked before a breach. -/
def livenessOutcome (g : Graph) : Liveness.Outcome :=
  Liveness.run g (Liveness.stepBound g) (Liveness.start g)

/-- The liveness analysis of a graph in special reverse postorder. -/
def liveness (g : Graph) : Except Breach Liveness :=
  match g.livenessOutcome with
  | ⟨s, none⟩ => .ok s
  | ⟨_, some e⟩ => .error e

end Graph

end Flowgraph
