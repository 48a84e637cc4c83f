import Flowgraph.Decimal.Double
import Flowgraph.Pipeline.Stage
import Flowgraph.Text.Cells
import Flowgraph.Timing.Duration

/-!
# The progress of one file

A row shows how far one file is. It follows the reports on its file until the file is finished, and
then stays as it is. A display shows what it is told, so a report may name any stage, and a report
with a status it does not know changes the stage alone.

## Finished rows

Reports can arrive after the one that closes a file, when its path is listed more than once. A row
that is done or failed takes no further report, which makes its outcome final.
-/

namespace Flowgraph.Progress

/-- A report on a file. -/
structure Report where
  file : String
  stage : String
  status? : Option Pipeline.Status
  /-- The wording of a failure, if one is reported. -/
  failure? : Option String
  elapsed : Duration

/-- The state of a row. -/
inductive RowState where
  | queued
  | running
  | cached
  | done
  | failed
deriving DecidableEq

/-- The display of one file. -/
structure Row where
  path : String
  state : RowState
  stage : String
  failure : String
  elapsed : Duration
  /-- Did the result come from the cache? -/
  cached : Bool
deriving DecidableEq

namespace Row

def waiting (path : String) : Row := ⟨path, .queued, "", "", 0, false⟩

def finished (r : Row) : Bool := r.state = .done || r.state = .failed

/-- The word that the row shows. -/
def label (r : Row) : String :=
  match r.state with
  | .queued => "queued"
  | .running => r.stage
  | .cached => "cached"
  | .done => if r.cached then "cached" else "done"
  | .failed => "error"

/-- How far along the stages the file is: half of a stage counts as soon as it has begun. -/
def fraction (r : Row) : Decimal.Double :=
  let track := Pipeline.Stage.track.map Pipeline.Stage.text
  if r.finished then .ofInt 1
  else if r.state = .queued then .zero
  else
    match track.idxOf? r.stage with
    | some position => .nearest false (2 * position + 1) (2 * track.length)
    | none => .zero

/-- Takes note of a report; a finished row stays as it is. -/
def apply (r : Row) (e : Report) : Row :=
  if r.finished then r
  else
    let r := { r with stage := e.stage }
    match e.status? with
    | some .queued => { r with state := .queued }
    | some .working => { r with state := .running }
    | some .cached => { r with state := .cached, cached := true }
    | some .error =>
      { r with
        state := .failed
        elapsed := e.elapsed
        failure := (e.failure?.map Text.firstLine).getD r.failure }
    | some .done =>
      if e.stage = Pipeline.Stage.write.text then { r with state := .done, elapsed := e.elapsed }
      else r
    | none => r

end Row

end Flowgraph.Progress
