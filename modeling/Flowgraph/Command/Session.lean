import Flowgraph.Command.Error

/-!
# Sessions

A session is one run of a command: the files it sees, what it has printed, and its trace. Traced
events are written as they happen, so on the standard error output they stand between the other
lines. A session that ends, well or not, writes its profile of the heap and closes its trace.
-/

namespace Flowgraph.Command

open Files (Tree FileError)

/-- What a command knows about its surroundings. -/
structure Environment where
  /-- The directory for results of all programs; empty if it is not set. -/
  cacheHome : String
  /-- The directory of the user; empty if it is not set. -/
  home : String
  /-- Is the standard output a terminal? -/
  isTerminal : Bool

/-- How a session is traced. -/
structure Tracing where
  level : Trace.Level
  tracer : Trace.Tracer
  sinks : Trace.Sinks
  recorder : Trace.Recorder
  /-- The file that events are written to; without one they go to the standard error output. -/
  path? : Option String
  /-- Are the kept events printed at the end? -/
  printsRing : Bool

/-- One run of a command. -/
structure Session where
  tree : Tree
  output : ByteArray
  errors : ByteArray
  color : Bool
  tracing : Tracing
  /-- The file that the profile of the heap is written to at the end. -/
  heapProfile? : Option String

/-- A step of a command. What it did before an error stays. -/
abbrev Step := ExceptT Error (StateM Session)

def Tracing.none : Tracing := ⟨.off, .none, .empty, .start, Option.none, false⟩

namespace Session

/-- A session that has done nothing. -/
def start (t : Tree) : Session := ⟨t, .empty, .empty, false, .none, none⟩

def printBytes (s : Session) (bytes : ByteArray) : Session := { s with output := s.output ++ bytes }

def print (s : Session) (text : String) : Session := s.printBytes text.toUTF8

/-- Prints a text on the standard error output. -/
def warn (s : Session) (text : String) : Session := { s with errors := s.errors ++ text.toUTF8 }

/-- Adds a text to a file, which is created if it is missing. -/
def append (s : Session) (path text : String) : Session :=
  let before := (s.tree.read path).toOption.getD .empty
  { s with tree := (s.tree.write path (before ++ text.toUTF8)).toOption.getD s.tree }

/-! ## The trace -/

/-- Hands on what the streams of the trace have written. -/
def passTraceOn (s : Session) : Session :=
  let streams := s.tracing.sinks.streams
  let text := String.join (streams.toList.map Trace.Stream.text)
  let emptied : Array Trace.Stream := streams.map fun x ↦ { x with text := "" }
  let s := { s with tracing.sinks.streams := emptied }
  match s.tracing.path? with
  | some path => s.append path text
  | none => s.warn text

/-- Takes over a recorder and writes its events. -/
def record (s : Session) (r : Trace.Recorder) : Session :=
  passTraceOn { s with
    tracing.recorder := r.drain
    tracing.sinks := s.tracing.sinks.deliver s.tracing.tracer r.events }

def closeTrace (s : Session) : Session :=
  let s := match s.tracing.printsRing, s.tracing.sinks.ringOf? s.tracing.tracer with
    | true, some ring => s.warn (ring.dump .text 0)
    | _, _ => s
  passTraceOn { s with tracing.sinks := s.tracing.sinks.close s.tracing.tracer }

def writeHeapProfile (s : Session) : Session :=
  match s.heapProfile? with
  | none => s
  | some path =>
    match s.tree.write path .empty with
    | .ok tree => { s with tree }
    | .error e => s.warn s!"profiling: write heap profile: {e.message}\n"

def close (s : Session) : Session := s.writeHeapProfile.closeTrace

end Session

namespace Step

def print (text : String) : Step Unit := modify (·.print text)

def printBytes (bytes : ByteArray) : Step Unit := modify (·.printBytes bytes)

/-- Prints a text on the standard error output. -/
def warn (text : String) : Step Unit := modify (·.warn text)

/-- Ends with an error, wrapped as one of a command. -/
def ofExcept {ε α : Type} (wrap : ε → Error) (r : Except ε α) : Step α :=
  match r with
  | .ok a => pure a
  | .error e => throw (wrap e)

/-- Applies an operation that changes the files. -/
def change (wrap : FileError → Error) (op : Tree → Except FileError Tree) : Step Unit := do
  let tree ← ofExcept wrap (op (← get).tree)
  modify fun s ↦ { s with tree }

/-- Applies an operation that changes the files also if it fails. -/
def attempt (wrap : FileError → Error) (op : Tree → Except FileError Unit × Tree) : Step Unit := do
  let (result, tree) := op (← get).tree
  modify fun s ↦ { s with tree }
  ofExcept wrap result

/-! ## Setting up -/

/-- Starts the trace that options ask for. An output without a level is traced by phases. -/
def startTrace (o : TraceOptions) : Step Unit := do
  let given ← ofExcept .traceName (Trace.Level.parse o.level)
  let level := if given = .off && o.path ≠ "" then .phase else given
  let mode ← ofExcept .traceName (Trace.Mode.parse o.mode)
  let format ← ofExcept .traceName (Trace.Format.parse o.format)
  let path? := if o.path = "" || o.path = "-" || mode = .ring then none else some o.path
  if level ≠ .off then
    let plan : Trace.Plan := ⟨level, mode, format, o.path, o.ringSize, false⟩
    let (sinks, tracer) ← ofExcept .traceSink (plan.build .empty)
    match path? with
    | some path => change .traceOutput (·.write path .empty)
    | none => pure ()
    let tracing : Tracing := ⟨level, tracer, sinks, .start, path?, mode = .ring⟩
    modify fun s ↦ { s with tracing }.passTraceOn

/-- Starts the profiles that options ask for. -/
def startProfiles (o : ProfileOptions) : Step Unit := do
  if o.cpu ≠ "" then change .cpuProfile (·.write o.cpu .empty)
  if o.execution ≠ "" then change .executionProfile (·.write o.execution .empty)
  if o.heap ≠ "" then modify fun s ↦ { s with heapProfile? := some o.heap }

def setUp (env : Environment) (o : Options) : Step Unit := do
  modify fun s ↦ { s with color := o.color.resolve env.isTerminal }
  startTrace o.trace
  startProfiles o.profile

end Step

end Flowgraph.Command
