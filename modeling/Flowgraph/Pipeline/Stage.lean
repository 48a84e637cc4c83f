/-!
# Stages and progress

A graph passes through stages, and each stage reports when it starts and how it ends.
-/

namespace Flowgraph.Pipeline

/-- One step applied to a graph. -/
inductive Stage where
  /-- Reading and decoding the graph file. -/
  | load
  /-- Checking the structure of the graph. -/
  | verify
  /-- Renumbering in special reverse postorder. -/
  | order
  /-- Marking the deferred blocks. -/
  | deferred
  /-- The liveness analysis. -/
  | analyze
  /-- Rebuilding the graph through the reducers. -/
  | reduce
  /-- Writing the result. -/
  | write
deriving DecidableEq

namespace Stage

def text : Stage → String
  | .load => "load"
  | .verify => "verify"
  | .order => "order"
  | .deferred => "deferred"
  | .analyze => "analyze"
  | .reduce => "reduce"
  | .write => "write"

/-- Every stage a file can pass through, in order. -/
def track : List Stage := [.load, .verify, .order, .deferred, .analyze, .reduce, .write]

end Stage

/-- How far a stage is. -/
inductive Status where
  | queued
  | working
  | cached
  | done
  | error
deriving DecidableEq

def Status.text : Status → String
  | .queued => "queued"
  | .working => "working"
  | .cached => "cached"
  | .done => "done"
  | .error => "error"

/-- A report on the progress of one file. -/
structure Event where
  file : String
  stage : Stage
  status : Status
  /-- The wording of the failure that is reported. -/
  failure? : Option String
deriving DecidableEq

end Flowgraph.Pipeline
