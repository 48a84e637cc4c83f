import Flowgraph.Graph.Basic

/-!
# Graph sketches

A sketch gives the successors of each block and says which blocks are loop headers. Its graph has
control flow only: a block ends in a return without successors, in a jump with one, and in a
branch on a fresh value with two.
-/

namespace Flowgraph

/-- The successors of each block, and the loop headers. -/
structure Sketch where
  successors : List (List BlockIndex)
  headers : List BlockIndex
deriving DecidableEq

namespace Sketch

def predecessorCount (s : Sketch) (b : BlockIndex) : Nat := s.successors.flatten.count b

def kind (s : Sketch) (b : BlockIndex) : BlockKind :=
  if b = 0 then .entry
  else if s.headers.contains b then .loop
  else if 1 < s.predecessorCount b then .merge
  else .plain

/-- Fills a block with the operations that lead to its successors. -/
def fill (g : Graph) (b : BlockIndex) (successors : List BlockIndex) : Except Breach Graph := do
  let g ← g.bind b
  match successors with
  | [] => g.addOperation (.ret [])
  | [t] => g.addOperation (.goto t)
  | [t, f] =>
    g.addOperations [.pure "cond".toUTF8 [], .branch g.opCount t f .unhinted]
  | _ => throw (.tooManySuccessors b successors.length)

/-- The graph of a sketch; every successor has to be a block. -/
def graph (s : Sketch) (name : ByteArray) : Except Breach Graph := do
  let n := s.successors.length
  if s.successors.flatten.any (n ≤ ·) then throw .fault
  let g ← (List.range n).foldlM (fun g b ↦ g.addBlock (s.kind b) false) (.empty name)
  s.successors.zipIdx.foldlM (fun g (successors, b) ↦ fill g b successors) g

end Sketch

end Flowgraph
