import Flowgraph.Files.Tree
import Flowgraph.GraphFile.Format

/-!
# Inputs of a batch

A batch is given files and directories. A directory stands for the graph files below it.
-/

namespace Flowgraph.Batch

open Files (Tree FileError)

/-- Does a path have the suffix of a graph file? -/
def isGraphFile (path : String) : Bool := (GraphFormat.forPath path).toOption.isSome

/-- The graph files below a directory, sorted. -/
def graphFiles (t : Tree) (directory : String) : Except FileError (List String) := do
  return ((← t.walk directory).map Prod.fst).filter isGraphFile

/-- The files that arguments stand for. An argument that is a file stays as it is. -/
def expand (t : Tree) : List String → Except FileError (List String)
  | [] => .ok []
  | arg :: rest => do
    let files ← match ← t.stat arg with
      | .file _ => pure [arg]
      | .directory => graphFiles t arg
    return files ++ (← expand t rest)

end Flowgraph.Batch
