import Flowgraph.Batch.Worker

/-!
# Batches

A batch works on its files one after the other. Before the first of them every file is reported as
queued. A batch that was called off touches no file.

## Order

With one job the files are worked on from first to last, and that is the case here. What can happen
with several jobs is described by steps of workers in any order, of which this is one.
-/

namespace Flowgraph.Batch

/-- The outcome of a file of a batch that was called off. -/
def Outcome.canceled (path : String) : Outcome := ⟨path, none, "", false, some .canceled⟩

/-- Works on one file from start to end. -/
def processFile (q : Request) (w : World) (path : String) : Outcome × World :=
  let (k, w) := Worker.steps q Worker.stepLimit (.fresh path, w)
  (k.outcome?.getD (.canceled path), w)

/-- Works on files one after the other. -/
def processFiles (q : Request) : List String → World → List Outcome × World
  | [], w => ([], w)
  | path :: rest, w =>
    let (o, w) := processFile q w path
    let (os, w) := processFiles q rest w
    (o :: os, w)

/-- Works on all files of a request. -/
def process (q : Request) (w : World) : List Outcome × World :=
  let w := q.files.foldl (fun w path ↦ w.report ⟨path, .load, .queued, none⟩) w
  if q.canceled then (q.files.map .canceled, w) else processFiles q q.files w

/-- Did a batch break off? One without files never does. -/
def brokeOff (q : Request) : Bool := q.canceled && !q.files.isEmpty

end Flowgraph.Batch
