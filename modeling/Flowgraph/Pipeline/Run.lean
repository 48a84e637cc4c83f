import Flowgraph.Order.Deferral
import Flowgraph.Order.Numbering
import Flowgraph.Pipeline.Settings
import Flowgraph.Pipeline.Stage
import Flowgraph.Pipeline.Stats
import Flowgraph.Rebuild.Reducer
import Flowgraph.Trace.Recorder
import Flowgraph.Verify

/-!
# Running the stages

A run takes a graph through the stages that its settings select: verification, renumbering in
special reverse postorder, propagation of deferred blocks, liveness analysis and rebuilding. Every
stage reports its start and its end and is wrapped in a span of the trace. A failure that the
stage itself finds is reported; a breach leaves the stage without a report and its span open.

A run can be called off while it goes on. Every stage looks for that before it starts.

## Journals

A run can fail at any stage, and what it recorded until then is still wanted: reports for the
display, events for the trace, counts for the timer. The monad of a run therefore keeps its journal
under the failure and not beside the value.

## Preconditions between stages

The elimination stages need a graph in special reverse postorder. If a run does not renumber and
goes on to a stage that needs the order, verification checks the order of the graph as it came. With
verification off nothing is checked, and a graph that does not fit can break a precondition inside
one of the stages.
-/

namespace Flowgraph.Pipeline

/-- A loop as a run reports it, in the block numbers of the input. -/
structure LoopSummary where
  header : BlockIndex
  /-- The blocks of the loop. A result that was stored without them has none. -/
  members : Option (List BlockIndex)
  /-- The number of the innermost enclosing loop, or -1. -/
  parent : Int
  depth : Int
deriving DecidableEq

/-- What a run produces. -/
structure Result where
  graph : Graph
  /-- The special reverse postorder in the block numbers of the input, if it was computed and there
  are any blocks. -/
  order : Option (List BlockIndex)
  loops : List LoopSummary
  stats : Stats
  /-- The stages that ran. -/
  stages : List Stage

/-- Why a run ends without a result. -/
inductive Failure where
  /-- The run was called off before a stage. -/
  | canceled
  /-- There is no graph. -/
  | noGraph
  /-- The graph is not fit for the passes. -/
  | invalid (problems : List Problem)
  /-- The rebuilt graph is not what it should be. -/
  | invalidReduced (problems : List Problem)
  /-- A stage broke a precondition. -/
  | breach (b : Breach)
deriving DecidableEq

/-- The wording of a failure; a breach has its own. -/
def Failure.message? : Failure → Option String
  | .canceled => some "context canceled"
  | .noGraph => some "invalid graph: nil graph"
  | .invalid ps => some s!"invalid graph: {Problem.messages ps}"
  | .invalidReduced ps => some s!"reduced graph: invalid graph: {Problem.messages ps}"
  | .breach b => b.message?

/-- What surrounds a run. -/
structure Context where
  settings : Settings
  /-- The file that progress is reported for. -/
  file : String
  level : Trace.Level
  /-- The span that the spans of the stages belong to. -/
  parent : Nat
  canceled : Bool

/-- What surrounds a stage, if the run is found called off before some of the stages. -/
def Context.before (c : Context) (calledOff : Stage → Bool) (s : Stage) : Context :=
  { c with canceled := calledOff s }

/-- What a run leaves behind as it goes. -/
structure Journal where
  recorder : Trace.Recorder
  /-- The progress reports. -/
  events : Array Event
  /-- The stages that were timed. -/
  timed : Array Stage

/-- A step of a run. The journal outlives a failure. -/
abbrev Run := ExceptT Failure (StateM Journal)

namespace Run

def report (c : Context) (stage : Stage) (status : Status) (failure? : Option String) : Run Unit :=
  modify fun j ↦ { j with events := j.events.push ⟨c.file, stage, status, failure?⟩ }

def record (f : Trace.Recorder → Trace.Recorder) : Run Unit :=
  modify fun j ↦ { j with recorder := f j.recorder }

/-- Breaks off at a broken precondition. -/
def ofExcept {α : Type} : Except Breach α → Run α
  | .ok a => pure a
  | .error b => throw (.breach b)

/-- Runs a stage between its reports and inside a span. The stage gives its value and a note, or
the failure it found. -/
def stage {α : Type} (c : Context) (s : Stage)
    (body : (span : Nat) → Run (Except Failure α × String)) : Run α := do
  if c.canceled then throw .canceled
  report c s .working none
  let j ← get
  let (recorder, span) := j.recorder.begin c.level .pass s.text c.parent
  set { j with recorder }
  let (result, note) ← body span.id
  record (·.finish span note)
  modify fun j ↦ { j with timed := j.timed.push s }
  match result with
  | .ok a => report c s .done none; return a
  | .error f => report c s .error f.message?; throw f

/-- A stage that finds no failure of its own. -/
def plainStage {α : Type} (c : Context) (s : Stage) (body : (span : Nat) → Run (α × String)) :
    Run α :=
  stage c s fun span ↦ do
    let (a, note) ← body span
    return (.ok a, note)

def verifyStage (c : Context) (g : Graph) (ordered : Bool) : Run Unit :=
  stage c .verify fun _ ↦
    match g.problems ordered with
    | [] => return (.ok (), "")
    | ps =>
      let failure := Failure.invalid ps
      return (.error failure, failure.message?.getD "")

/-- The loops of a numbering as a run reports them. -/
def summarize (n : Numbering) : List LoopSummary :=
  n.loops.zipIdx.map fun (l, i) ↦
    ⟨l.header, some l.members.toList, ((n.parent? i).map Int.ofNat).getD (-1),
      n.depth l.header⟩

def orderStage (c : Context) (g : Graph) :
    Run (Graph × Option (List BlockIndex) × List LoopSummary) :=
  plainStage c .order fun _ ↦ do
    let n ← ofExcept g.numbering
    let g ← ofExcept (g.reorder n.order)
    let order := if n.order.isEmpty then none else some n.order
    return ((g, order, summarize n), s!"{n.loops.length} loops")

def deferredStage (c : Context) (g : Graph) : Run Graph :=
  plainStage c .deferred fun _ ↦ do
    let g := g.propagateDeferred
    return (g, s!"{g.deferredCount} deferred")

/-- Records a point for each walked block. -/
def recordWalk (c : Context) (span : Nat) (walked : List (BlockIndex × Control)) : Run Unit :=
  record fun r ↦ walked.reverse.foldl
    (fun r (b, control) ↦ r.point c.level .block s!"block:{b.text}" span control.text) r

def analyzeStage (c : Context) (g : Graph) : Run Liveness :=
  plainStage c .analyze fun span ↦ do
    let outcome := g.livenessOutcome
    let s := outcome.state
    recordWalk c span s.walked
    match outcome.breach? with
    | some b => throw (.breach b)
    | none => return (s, s!"{s.liveCount}/{g.opCount} live, {s.visits} visits")

/-- The number of branches that became jumps. -/
def rewrittenBranches (g : Graph) (s : Liveness) : Nat :=
  s.rewrites.toList.countP fun (i, _) ↦
    match g.ops[i]? with
    | some ⟨.branch .., _⟩ => true
    | _ => false

def reduceStage (c : Context) (g : Graph) (s : Liveness) : Run Graph :=
  plainStage c .reduce fun _ ↦ do
    let out ← ofExcept (g.rebuild (Graph.eliminators s c.settings.forwardPhis))
    return (out, s!"{out.opCount} ops, {out.blockCount} blocks")

/-- Elimination of dead code: the analysis, the rebuilding and, if asked for, a check of the
result. The numbers are the rewritten branches and whether the graph makes no call. -/
def eliminationUnless (calledOff : Stage → Bool) (c : Context) (g : Graph) :
    Run (Graph × Nat × Bool) := do
  let s ← analyzeStage (c.before calledOff .analyze) g
  let out ← reduceStage (c.before calledOff .reduce) g s
  if c.settings.verify then
    match out.problems true with
    | [] => pure ()
    | ps => throw (.invalidReduced ps)
  return (out, rewrittenBranches g s, s.leaf)

/-- Elimination in a run that is called off from the start or not at all. -/
def elimination (c : Context) (g : Graph) : Run (Graph × Nat × Bool) :=
  eliminationUnless (fun _ ↦ c.canceled) c g

/-- All stages that the settings select. -/
def stagesUnless (calledOff : Stage → Bool) (c : Context) (g : Graph) : Run Result := do
  let cfg := c.settings
  if cfg.verify then
    verifyStage (c.before calledOff .verify) g
      (!cfg.specialRpo && (cfg.propagateDeferred || cfg.eliminateDeadCode))
  let (ordered, order, loops) ←
    if cfg.specialRpo then orderStage (c.before calledOff .order) g else pure (g, none, [])
  let deferred ←
    if cfg.propagateDeferred then deferredStage (c.before calledOff .deferred) ordered
    else pure ordered
  let (out, rewritten, leaf) ←
    if cfg.eliminateDeadCode then eliminationUnless calledOff c deferred
    else pure (deferred, 0, false)
  return {
    graph := out
    order, loops
    stats := {
      blocks := g.blockCount
      blocksOut := out.blockCount
      loops := loops.length
      maxLoopDepth := (loops.map LoopSummary.depth).foldl max 0
      deferred := out.deferredCount
      opsIn := g.opCount
      opsOut := out.opCount
      opsRemoved := (g.opCount : Int) - out.opCount
      branchesRewritten := rewritten
      leaf }
    stages := (← get).timed.toList }

/-- All stages of a run that is called off from the start or not at all. -/
def stages (c : Context) (g : Graph) : Run Result := stagesUnless (fun _ ↦ c.canceled) c g

end Run

/-- Runs the selected stages on a graph, if there is one, until the run is found called off before
one of them. The journal starts with a given trace. -/
def runUnless (calledOff : Stage → Bool) (c : Context) (recorder : Trace.Recorder)
    (g? : Option Graph) : Except Failure Result × Journal :=
  match g? with
  | none => (.error .noGraph, ⟨recorder, #[], #[]⟩)
  | some g => (Run.stagesUnless calledOff c g).run ⟨recorder, #[], #[]⟩

/-- Runs the selected stages of a run that is called off from the start or not at all. -/
def run (c : Context) (recorder : Trace.Recorder) (g? : Option Graph) :
    Except Failure Result × Journal :=
  runUnless (fun _ ↦ c.canceled) c recorder g?

end Flowgraph.Pipeline
