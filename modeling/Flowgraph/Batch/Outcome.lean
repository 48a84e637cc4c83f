import Flowgraph.GraphFile.Storage
import Flowgraph.Pipeline.Run

/-!
# Outcomes

What working on one file comes to: a result, an output file, a failure, or a result that could not
be written.
-/

namespace Flowgraph.Batch

open Files (FileError)

/-- Why a file is not done. -/
inductive Failure where
  /-- The batch was called off. -/
  | canceled
  | load (e : GraphFile.Error)
  | pipeline (path : String) (f : Pipeline.Failure)
  | format (e : FormatError)
  | outputDirectory (e : FileError)
  | save (e : GraphFile.Error)
deriving DecidableEq

namespace Failure

/-- The wording of a broken precondition inside a stage. -/
def internalMessage (b : Breach) : String := "internal error: " ++ b.message?.getD "runtime error"

def message : Failure → String
  | .canceled => "context canceled"
  | .load e | .save e => e.message
  | .pipeline path (.breach b) => s!"{path}: {internalMessage b}"
  | .pipeline path f => s!"{path}: " ++ f.message?.getD ""
  | .format e => e.message
  | .outputDirectory e => s!"failed to create output dir: {e.message}"

end Failure

/-- What working on one file comes to. -/
structure Outcome where
  path : String
  result? : Option Pipeline.Result
  /-- The graph file that was written; empty for none. -/
  output : String
  /-- Does the result come from the cache? -/
  cached : Bool
  failure? : Option Failure

end Flowgraph.Batch
