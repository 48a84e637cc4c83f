import Flowgraph.Graph.Basic
import Flowgraph.Text.Quoted

/-!
# Structural violations

`Graph.violations` lists everything in which a graph departs from the structure that the passes
rely on: every block ends in its only terminator, references are in range, the entry is the only
block without predecessors, and phis match the predecessors of their block.

## One rule at a time

The four groups come in a fixed order, and within a group the blocks or operations come in theirs. A
block without operations has no terminator to be checked, and the first group reports it as empty
and nothing else. References are checked operation by operation, also in blocks that have other
faults.
-/

namespace Flowgraph

/-- One departure from the structure of a graph. -/
inductive Violation where
  | noBlocks (name : ByteArray)
  | emptyBlock (b : BlockIndex)
  | misplacedTerminator (b : BlockIndex) (i : OpIndex)
  | unterminated (b : BlockIndex)
  | missingInput (i : OpIndex) (position : Nat) (input : OpIndex)
  | missingTarget (i : OpIndex) (target : BlockIndex)
  | conditionCount (i : OpIndex) (count : Nat)
  | missingTrueTarget (i : OpIndex) (target : BlockIndex)
  | missingFalseTarget (i : OpIndex) (target : BlockIndex)
  | entryKind (kind : BlockKind)
  | entryPredecessors (count : Nat)
  | secondEntry (b : BlockIndex)
  | noPredecessors (b : BlockIndex)
  | plainPredecessors (b : BlockIndex) (count : Nat)
  | strayPhi (b : BlockIndex) (i : OpIndex) (kind : BlockKind)
  | phiArity (b : BlockIndex) (i : OpIndex) (inputs predecessors : Nat)
deriving DecidableEq

def Violation.message : Violation → String
  | .noBlocks name => s!"graph {Text.quotedBytes name} has no blocks"
  | .emptyBlock b => s!"b{b}: empty block"
  | .misplacedTerminator b i => s!"b{b}: terminator {i.text} is not the last operation"
  | .unterminated b => s!"b{b}: unterminated block"
  | .missingInput i j input => s!"v{i}: input {j} ({input.text}) does not exist"
  | .missingTarget i t => s!"v{i}: goto target {t.text} does not exist"
  | .conditionCount i n => s!"v{i}: branch needs exactly one condition, has {n}"
  | .missingTrueTarget i t => s!"v{i}: branch true target {t.text} does not exist"
  | .missingFalseTarget i t => s!"v{i}: branch false target {t.text} does not exist"
  | .entryKind k => s!"b0: entry block has kind {k.text}"
  | .entryPredecessors n => s!"b0: entry block has {n} predecessors"
  | .secondEntry b => s!"b{b}: only block 0 may be an entry block"
  | .noPredecessors b => s!"b{b}: block has no predecessors"
  | .plainPredecessors b n => s!"b{b}: plain block has {n} predecessors"
  | .strayPhi b i k => s!"b{b}: phi {i.text} in {k.text} block"
  | .phiArity b i m n => s!"b{b}: phi {i.text} has {m} inputs for {n} predecessors"

namespace Graph

/-- The operations of a block with their handles. -/
def blockOps (g : Graph) (b : Block) : List (OpIndex × Operation) :=
  b.span.toList.filterMap fun i ↦ g.ops[i]?.map fun op ↦ (i, op)

/-- Violations of the rule that the last operation of a block is its only terminator. -/
def terminatorViolations (g : Graph) (b : BlockIndex) (blk : Block) : List Violation :=
  match blk.span.last? with
  | none => [.emptyBlock b]
  | some last =>
    let misplaced := (g.blockOps blk).filterMap fun (i, op) ↦
      if op.isTerminator ∧ i ≠ last then some (.misplacedTerminator b i) else none
    let lastEnds := (g.ops[last]?.map Operation.isTerminator).getD false
    misplaced ++ (if lastEnds then [] else [.unterminated b])

/-- Violations of the rule that references are in range. -/
def referenceViolations (g : Graph) (i : OpIndex) (op : Operation) : List Violation :=
  let inputs := op.inputs.zipIdx.filterMap fun (input, j) ↦
    if input < g.opCount then none else some (.missingInput i j input)
  let target (b : BlockIndex) (v : Violation) : List Violation :=
    if b < g.blockCount then [] else [v]
  inputs ++
    match op.action with
    | .goto t => target t (.missingTarget i t)
    | .branch t f _ =>
      (if op.inputs.length = 1 then [] else [.conditionCount i op.inputs.length])
        ++ target t (.missingTrueTarget i t) ++ target f (.missingFalseTarget i f)
    | _ => []

def predecessorViolations (g : Graph) (b : BlockIndex) (blk : Block) : List Violation :=
  let n := (g.predecessors b).length
  if b = 0 then
    (if blk.kind = .entry then [] else [.entryKind blk.kind])
      ++ (if n = 0 then [] else [.entryPredecessors n])
  else if blk.kind = .entry then [.secondEntry b]
  else if n = 0 then [.noPredecessors b]
  else if blk.kind = .plain ∧ n ≠ 1 then [.plainPredecessors b n]
  else []

def phiViolations (g : Graph) (b : BlockIndex) (blk : Block) : List Violation :=
  let n := (g.predecessors b).length
  (g.blockOps blk).filterMap fun (i, op) ↦
    if !op.isPhi then none
    else if !(blk.isLoop || blk.isMerge) then some (.strayPhi b i blk.kind)
    else if op.inputs.length ≠ n then some (.phiArity b i op.inputs.length n)
    else none

/-- All violations of a graph, rule by rule. -/
def violations (g : Graph) : List Violation :=
  if g.blockCount = 0 then [.noBlocks g.name]
  else
    let blocks := g.blocks.toList.zipIdx
    (blocks.flatMap fun (blk, b) ↦ g.terminatorViolations b blk)
      ++ (g.ops.toList.zipIdx.flatMap fun (op, i) ↦ g.referenceViolations i op)
      ++ (blocks.flatMap fun (blk, b) ↦ g.predecessorViolations b blk)
      ++ (blocks.flatMap fun (blk, b) ↦ g.phiViolations b blk)

end Graph

end Flowgraph
