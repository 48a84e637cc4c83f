import Flowgraph.Graph.Basic

/-!
# Listings

A listing shows a graph block by block, each block with its kind, predecessors and operations.
-/

namespace Flowgraph.Graph

def blockHeader (g : Graph) (b : BlockIndex) (blk : Block) : String :=
  let preds := g.predecessors b
  s!"{b.text} ({blk.kind.text})"
    ++ (if preds.isEmpty then "" else " <- " ++ ", ".intercalate (preds.map BlockIndex.text))
    ++ (if blk.deferred then " deferred" else "") ++ ":"

def blockListing (g : Graph) (b : BlockIndex) (blk : Block) : ByteArray :=
  blk.span.toList.foldl
    (fun out i ↦
      match g.ops[i]? with
      | some op => out ++ s!"    {OpIndex.text i} = ".toUTF8 ++ op.text ++ "\n".toUTF8
      | none => out)
    s!"  {g.blockHeader b blk}\n".toUTF8

def listing (g : Graph) : ByteArray :=
  g.blocks.toList.zipIdx.foldl
    (fun out (blk, b) ↦ out ++ g.blockListing b blk)
    ("graph ".toUTF8 ++ g.name ++ s!": blocks={g.blockCount} ops={g.opCount}\n".toUTF8)

end Flowgraph.Graph
