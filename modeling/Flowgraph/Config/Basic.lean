import Flowgraph.Pipeline.Settings
import Flowgraph.Text.Case
import Flowgraph.Text.Quoted

/-!
# Configurations

A configuration selects the stages of the pipeline, how a batch of files is worked on, and what is
written. What can be wrong with one is listed in a fixed order.
-/

namespace Flowgraph

/-- How a batch of files is worked on. -/
structure BatchSettings where
  /-- How many files are worked on at a time; 0 leaves it to the machine. -/
  jobs : Int
  /-- Are results kept for later runs? -/
  cache : Bool
  /-- Where they are kept; empty for the place of the user. -/
  cacheDirectory : String
deriving DecidableEq

/-- What a run writes. -/
structure OutputSettings where
  /-- The name of the format of written graphs. -/
  format : String
  /-- The kinds of output that are asked for. -/
  emit : List String
  /-- Where graphs are written; empty for nowhere. -/
  directory : String
deriving DecidableEq

/-- A whole configuration. -/
structure Config where
  pipeline : Pipeline.Settings
  batch : BatchSettings
  output : OutputSettings
deriving DecidableEq

namespace Config

def emitKinds : List String := ["graph", "order", "stats"]

/-- The configuration that holds where nothing else is said. -/
def default : Config := ⟨.default, ⟨0, true, ""⟩, ⟨"text", ["graph"], ""⟩⟩

def emits (c : Config) (kind : String) : Bool := c.output.emit.contains kind

/-- What can be wrong with a configuration. -/
inductive Problem where
  | negativeJobs (n : Int)
  | unknownFormat (name : String)
  | unknownKind (name : String)
  | forwardsWithoutElimination
deriving DecidableEq

def Problem.message : Problem → String
  | .negativeJobs n => s!"[driver].jobs must be >= 0, got {n}"
  | .unknownFormat s => s!"[output].format must be text or binary, got {Text.quoted s}"
  | .unknownKind s =>
    s!"[output].emit: unknown kind {Text.quoted s} (expected: " ++ "|".intercalate emitKinds ++ ")"
  | .forwardsWithoutElimination => "[pipeline].forward_phis requires eliminate_dead_code"

/-- The wording of several problems, one a line. -/
def Problem.messages (l : List Problem) : String := "\n".intercalate (l.map message)

/-- Everything that is wrong with a configuration. -/
def problems (c : Config) : List Problem :=
  (if c.batch.jobs < 0 then [.negativeJobs c.batch.jobs] else [])
    ++ (if ["text", "binary"].contains (Text.lower c.output.format) then []
        else [.unknownFormat c.output.format])
    ++ (c.output.emit.filter (!emitKinds.contains ·)).map .unknownKind
    ++ (if c.pipeline.forwardPhis && !c.pipeline.eliminateDeadCode then
          [.forwardsWithoutElimination] else [])

end Config

end Flowgraph
