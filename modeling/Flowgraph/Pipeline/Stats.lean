/-!
# Counters of a run
-/

namespace Flowgraph.Pipeline

/-- What a run did to one graph, in numbers. -/
structure Stats where
  blocks : Int
  blocksOut : Int
  loops : Int
  maxLoopDepth : Int
  deferred : Int
  opsIn : Int
  opsOut : Int
  opsRemoved : Int
  branchesRewritten : Int
  /-- The graph makes no call. -/
  leaf : Bool
deriving DecidableEq

namespace Stats

def zero : Stats := ⟨0, 0, 0, 0, 0, 0, 0, 0, 0, false⟩

/-- A number among the counters. -/
structure Counter where
  name : String
  get : Stats → Int
  set : Stats → Int → Stats

/-- The numbers by name, in the order in which they are stored. -/
def counters : List Counter :=
  [⟨"blocks", blocks, fun s n ↦ { s with blocks := n }⟩,
   ⟨"blocks_out", blocksOut, fun s n ↦ { s with blocksOut := n }⟩,
   ⟨"loops", loops, fun s n ↦ { s with loops := n }⟩,
   ⟨"max_loop_depth", maxLoopDepth, fun s n ↦ { s with maxLoopDepth := n }⟩,
   ⟨"deferred", deferred, fun s n ↦ { s with deferred := n }⟩,
   ⟨"ops_in", opsIn, fun s n ↦ { s with opsIn := n }⟩,
   ⟨"ops_out", opsOut, fun s n ↦ { s with opsOut := n }⟩,
   ⟨"ops_removed", opsRemoved, fun s n ↦ { s with opsRemoved := n }⟩,
   ⟨"branches_rewritten", branchesRewritten, fun s n ↦ { s with branchesRewritten := n }⟩]

/-- The counters in one line. -/
def text (s : Stats) : String :=
  s!"blocks {s.blocks}->{s.blocksOut}, loops {s.loops} (depth {s.maxLoopDepth}), "
    ++ s!"deferred {s.deferred}, ops {s.opsIn}->{s.opsOut} (-{s.opsRemoved}), "
    ++ s!"branches rewritten {s.branchesRewritten}" ++ (if s.leaf then ", leaf" else "")

end Stats

end Flowgraph.Pipeline
