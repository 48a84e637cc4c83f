import Flowgraph.Graph.Basic

/-!
# Renumbering the blocks of a graph

`Graph.reorder` makes block `perm[i]` block `i`. Operations are numbered anew so that they follow
the new order of their blocks, and every reference to a block or an operation is renamed. The
order of the edges, and so the order of the predecessors of each block, does not change.

## What does not move

The inputs of a phi stand in the order of the predecessors of its block, and that order is the order
of the edges. Renumbering would have to permute the inputs of every phi if it sorted the edges by
their new sources, so it leaves them in place and renames their ends. A graph that is written and
read again gets its edges in the order of its blocks, which is another matter.

## Stopping

The checks come before the first change: no block is open, the permutation has the right length, and
it names each block once. Renaming can still stop, at a reference that leads out of its table.
-/

namespace Flowgraph.Graph

/-- For each of `n` blocks its position in `perm`, if `perm` names every block at most once. -/
def positions (n : Nat) (perm : List BlockIndex) : Except Breach (Array (Option Nat)) :=
  perm.zipIdx.foldlM
    (fun table (b, pos) ↦
      match table[b]? with
      | some none => .ok (table.setIfInBounds b (some pos))
      | _ => .error (.notBijective pos b))
    (Array.replicate n none)

/-- The operations of the listed blocks, block by block. -/
def opsOf (g : Graph) (blocks : List BlockIndex) : List OpIndex :=
  blocks.flatMap fun b ↦ (g.span b).toList

/-- The new number of each of `n` operations when `order` lists the old ones. -/
def renumbering (n : Nat) (order : List OpIndex) : Array OpIndex :=
  order.zipIdx.foldl (fun table (old, new) ↦ table.setIfInBounds old new) (Array.replicate n 0)

/-- The listed blocks with their ranges laid one after the other from `start`. -/
def place (g : Graph) : Nat → List BlockIndex → List Block
  | _, [] => []
  | start, b :: rest =>
    match g.blocks[b]? with
    | none => place g start rest
    | some blk =>
      let n := blk.span.length
      let moved := if n = 0 then blk else { blk with span? := some ⟨start, start + n⟩ }
      moved :: place g (start + n) rest

/-- A table look-up that stops outside the table. -/
def lookup {α : Type} (table : Array α) (i : Nat) : Except Breach α :=
  match table[i]? with
  | some a => .ok a
  | none => .error .fault

/-- Renumbers the blocks so that block `perm[i]` becomes block `i`. -/
def reorder (g : Graph) (perm : List BlockIndex) : Except Breach Graph := do
  if g.bound.isSome then throw .reorderWhileBound
  if perm.length ≠ g.blockCount then throw (.permutationSize perm.length g.blockCount)
  let newIndex ← positions g.blockCount perm
  let block (b : BlockIndex) : Except Breach BlockIndex := do
    match ← lookup newIndex b with
    | some b' => return b'
    | none => throw .fault
  let order := g.opsOf perm
  let newOp := renumbering g.opCount order
  let ops ← order.mapM fun i ↦ do (← lookup g.ops i).rename block (lookup newOp)
  let edges ← g.edges.mapM fun e ↦ do return ⟨← block e.source, ← block e.target⟩
  return { g with
    ops := ops.toArray
    owners := (perm.zipIdx.flatMap fun (b, pos) ↦ List.replicate (g.span b).length pos).toArray
    blocks := (g.place 0 perm).toArray
    edges }

end Flowgraph.Graph
