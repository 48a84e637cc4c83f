import Flowgraph.Batch.Outcome
import Flowgraph.Cache.Store
import Flowgraph.Config.Basic
import Flowgraph.Timing.Timer

/-!
# Workers

A worker takes one file through its phases: loading, looking for a stored result, running the
pipeline, storing the result, opening the output and filling it. Each phase is one step, in which
the worker reads and changes what it shares with the other workers: the files, the trace, the
progress reports and the timer. Workers can be interleaved step by step. A batch can be called off
at any time: a worker notices it before the next stage of the pipeline.

A stored result is written to a file of its own that then takes its name, which is one step. An
output is not: opening the file empties it, and the graph is written afterwards, so that workers
whose outputs have the same path can come between each other.

A worker sends exactly one closing report, an error or the end of writing, and it sends it last. An
error that the pipeline has reported itself is not reported again.

## What a step sees

Within a step nobody else changes the shared state. Between two steps of one worker any number of
steps of others can lie. So a result that was not found when it was looked for may be stored by the
time this worker stores its own, and a directory that was made may hold new files.

## Reports

`stage` is the stage that a failure is reported at. `failed` notes that an error has been reported,
by the pipeline or by the worker.
-/

namespace Flowgraph.Batch

open Files (Tree)
open Pipeline (Stage Status Event)

/-- What a batch is asked to do. -/
structure Request where
  files : List String
  config : Config
  /-- Where results are kept, if anywhere. -/
  store? : Option Cache.Store
  level : Trace.Level
  /-- The span that the spans of the files belong to. -/
  parent : Nat
  canceled : Bool

/-- What the workers share. -/
structure World where
  tree : Tree
  recorder : Trace.Recorder
  events : Array Event
  timer : Timing.Timer

/-- How far a worker is. -/
inductive Phase where
  | waiting
  | loading
  | looking (g : Graph) (bytes : ByteArray)
  /-- The key is there if the result is to be stored. -/
  | running (g : Graph) (key? : Option ByteArray)
  | storing (r : Pipeline.Result) (key? : Option ByteArray)
  | writing (r : Pipeline.Result) (cached : Bool)
  /-- The output is open and empty. -/
  | filling (r : Pipeline.Result) (cached : Bool) (output : GraphFile.Opened)
  | ended (o : Outcome)

/-- A worker. -/
structure Worker where
  path : String
  span : Trace.Span
  /-- The stage that was reported last. -/
  stage : Stage
  /-- Has an error been reported? -/
  failed : Bool
  phase : Phase

namespace World

def report (w : World) (e : Event) : World := { w with events := w.events.push e }

/-- Records a remark on the cache. -/
def remark (w : World) (level : Trace.Level) (span : Trace.Span) (detail : String) : World :=
  { w with recorder := w.recorder.point level .driver "cache" span.id detail }

/-- Counts the run of a stage. -/
def time (w : World) (s : Stage) : World := { w with timer := w.timer.record s.text 0 "" }

end World

namespace Worker

def fresh (path : String) : Worker := ⟨path, .discarded, .load, false, .waiting⟩

/-- Sends a report and remembers its stage. -/
def report (k : Worker) (w : World) (stage : Stage) (status : Status) (failure? : Option String) :
    Worker × World :=
  ({ k with stage, failed := k.failed || status = .error },
    w.report ⟨k.path, stage, status, failure?⟩)

/-- Ends with a failure, which may come with a result. -/
def fail (k : Worker) (w : World) (f : Failure) (r? : Option Pipeline.Result) (cached : Bool) :
    Worker × World :=
  let w := { w with recorder := w.recorder.finish k.span s!"error: {f.message}" }
  let (k, w) := if k.failed then (k, w) else k.report w k.stage .error (some f.message)
  ({ k with phase := .ended ⟨k.path, r?, "", cached, some f⟩ }, w)

/-- Ends with a result and its output file. -/
def succeed (k : Worker) (w : World) (r : Pipeline.Result) (output : String) (cached : Bool) :
    Worker × World :=
  let w := { w with recorder := w.recorder.finish k.span (if cached then "cached" else "done") }
  let (k, w) := k.report w .write .done none
  ({ k with phase := .ended ⟨k.path, some r, output, cached, none⟩ }, w)

/-! ## The phases -/

def start (q : Request) (k : Worker) (w : World) : Worker × World :=
  let (recorder, span) := w.recorder.begin q.level .driver s!"file:{k.path}" q.parent
  { k with span, phase := .loading }.report { w with recorder } .load .working none

def load (k : Worker) (w : World) : Worker × World :=
  let w := w.time .load
  match GraphFile.load w.tree k.path with
  | .error e => k.fail w (.load e) none false
  | .ok (g, bytes) => ({ k with phase := .looking g bytes }, w)

/-- The stored result under a key, or what is to be remarked about it. -/
def stored (s : Cache.Store) (t : Tree) (key : ByteArray) :
    Except String (Option Pipeline.Result) :=
  match s.lookup t key with
  | .error e => .error e.message
  | .ok p =>
    if p.isCurrent then
      match p.result with
      | .ok r => .ok (some r)
      | .error e => .error e.message
    else .ok none

/-- Looks for a stored result. Nothing can go wrong with the key: it is made of the bytes, the name
and five flags, and a record of flags always has an encoding. -/
def look (q : Request) (k : Worker) (w : World) (g : Graph) (bytes : ByteArray) : Worker × World :=
  match q.store? with
  | some s =>
    if q.config.batch.cache then
      let key := Digest.resultKey bytes g.name q.config.pipeline
      match stored s w.tree key with
      | .ok (some r) =>
        let (k, w) := k.report w .load .cached none
        ({ k with phase := .writing r true }, w)
      | .ok none => goOn (some key) w
      | .error remark => goOn (some key) (w.remark q.level k.span remark)
    else goOn none w
  | none => goOn none w
where
  /-- Loading is done. -/
  goOn (key? : Option ByteArray) (w : World) : Worker × World :=
    let (k, w) := k.report w .load .done none
    ({ k with phase := .running g key? }, w)

/-- Takes over what a run of the pipeline came to and left behind. -/
def takeOver (k : Worker) (w : World) (key? : Option ByteArray)
    (x : Except Pipeline.Failure Pipeline.Result × Pipeline.Journal) : Worker × World :=
  let (result, journal) := x
  let w : World :=
    { w with recorder := journal.recorder, events := w.events ++ journal.events,
             timer := (journal.timed.foldl World.time w).timer }
  let k : Worker :=
    { k with stage := (journal.events.back?.map Event.stage).getD k.stage,
             failed := k.failed || journal.events.any (·.status = .error) }
  match result with
  | .ok r => ({ k with phase := .storing r key? }, w)
  | .error f => k.fail w (.pipeline k.path f) none false

/-- Runs the pipeline, unless the batch is called off before one of the stages. -/
def runUnless (calledOff : Stage → Bool) (q : Request) (k : Worker) (w : World) (g : Graph)
    (key? : Option ByteArray) : Worker × World :=
  k.takeOver w key? (Pipeline.runUnless calledOff
    ⟨q.config.pipeline, k.path, q.level, k.span.id, false⟩ w.recorder (some g))

def store (q : Request) (k : Worker) (w : World) (r : Pipeline.Result) (key? : Option ByteArray) :
    Worker × World :=
  let k := { k with stage := .write, phase := .writing r false }
  match q.store?, key? with
  | some s, some key =>
    match s.insert w.tree key (.ofResult r) with
    | (.ok _, tree) => (k, { w with tree })
    | (.error e, tree) => (k, { w with tree }.remark q.level k.span e.message)
  | _, _ => (k, w)

def outputPath (directory path : String) (f : GraphFormat) : String :=
  Files.join [directory, GraphFile.stem path ++ f.suffix]

/-- Opens the output for the graph of a result, if one is asked for. -/
def openOutput (c : Config) (t : Tree) (path : String) (g : Graph) :
    Except Failure (Option GraphFile.Opened) × Tree :=
  if c.output.directory = "" || !c.emits "graph" then (.ok none, t)
  else
    match GraphFormat.parse c.output.format with
    | .error e => (.error (.format e), t)
    | .ok f =>
      match t.makeDirectories c.output.directory with
      | (.error e, t) => (.error (.outputDirectory e), t)
      | (.ok _, t) =>
        match GraphFile.create t (outputPath c.output.directory path f) g with
        | .error e => (.error (.save e), t)
        | .ok (output, t) => (.ok (some output), t)

/-- Opens the output. Without one the work is done. -/
def write (q : Request) (k : Worker) (w : World) (r : Pipeline.Result) (cached : Bool) :
    Worker × World :=
  match openOutput q.config w.tree k.path r.graph with
  | (.ok none, tree) => k.succeed { w with tree } r "" cached
  | (.ok (some output), tree) => ({ k with phase := .filling r cached output }, { w with tree })
  | (.error f, tree) => k.fail { w with tree } f (some r) cached

/-- Writes the graph into the open output. -/
def fill (k : Worker) (w : World) (r : Pipeline.Result) (cached : Bool)
    (output : GraphFile.Opened) : Worker × World :=
  k.succeed { w with tree := output.write w.tree } r output.path cached

/-- Takes one step in a batch that can be called off while the worker runs the pipeline. -/
def stepUnless (calledOff : Stage → Bool) (q : Request) (k : Worker) (w : World) :
    Worker × World :=
  match k.phase with
  | .waiting => k.start q w
  | .loading => k.load w
  | .looking g bytes => k.look q w g bytes
  | .running g key? => k.runUnless calledOff q w g key?
  | .storing r key? => k.store q w r key?
  | .writing r cached => k.write q w r cached
  | .filling r cached output => k.fill w r cached output
  | .ended _ => (k, w)

/-- Takes one step in a batch that is not called off. -/
def step (q : Request) (k : Worker) (w : World) : Worker × World :=
  k.stepUnless (fun _ ↦ false) q w

/-- The number of steps after which every worker has ended. -/
def stepLimit : Nat := 7

/-- Takes a number of steps. -/
def steps (q : Request) : Nat → Worker × World → Worker × World
  | 0, s => s
  | n + 1, (k, w) => steps q n (k.step q w)

def outcome? (k : Worker) : Option Outcome :=
  match k.phase with
  | .ended o => some o
  | _ => none

end Worker

end Flowgraph.Batch
