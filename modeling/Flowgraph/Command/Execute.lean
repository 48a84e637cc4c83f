import Flowgraph.Batch.Inputs
import Flowgraph.Batch.Process
import Flowgraph.Command.Report
import Flowgraph.Command.Session
import Flowgraph.Version

/-!
# Executing commands

Each command is an action on a session. Executing a command line finds the command, reads its flags,
checks its arguments, sets the session up, and runs the action; whatever the outcome, the session is
closed and its error, if any, reported.
-/

namespace Flowgraph.Command

open Files (FileError)

/-! ## The configuration -/

/-- The configuration with what was given on the command line. Without elimination there is no
forwarding of phis either. -/
def Overrides.apply (v : Overrides) (c : Config) : Config :=
  let eliminate := match v.noElimination? with
    | some b => !b
    | none => c.pipeline.eliminateDeadCode
  let forward := v.forwardPhis?.getD c.pipeline.forwardPhis
  { pipeline := { c.pipeline with
      eliminateDeadCode := eliminate
      forwardPhis := if v.noElimination?.isSome then forward && eliminate else forward }
    batch := { c.batch with
      jobs := v.jobs?.getD c.batch.jobs
      cache := match v.noCache? with
        | some b => !b
        | none => c.batch.cache }
    output :=
      ⟨v.format?.getD c.output.format, (v.emit?.map settledList).getD c.output.emit,
        v.directory?.getD c.output.directory⟩ }

namespace Step

def loadConfig (o : Options) : Step Config := do
  let (found, _) ← ofExcept .config (Config.resolve (← get).tree "." o.config)
  let c := o.overrides.apply found
  match c.problems with
  | [] => return c
  | ps => throw (.settings ps)

/-- The directory for results of all programs. -/
def cacheHome (env : Environment) : Except CacheHomeError String :=
  if env.cacheHome ≠ "" then
    if Files.isAbsolute env.cacheHome then .ok env.cacheHome else .error .relative
  else if env.home ≠ "" then .ok (env.home ++ "/.cache")
  else .error .undefined

def cacheDirectory (env : Environment) (c : Config) : Step String := do
  if c.batch.cacheDirectory ≠ "" then return c.batch.cacheDirectory
  return Files.join [← ofExcept .cacheHome (cacheHome env), BuildInfo.program]

/-- The store in a directory, which is made if it is missing. -/
def openStore (directory : String) : Step Cache.Store := do
  let s : Cache.Store := ⟨directory⟩
  attempt .cacheDirectory s.prepare
  return s

/-- The graph files that arguments stand for. -/
def inputs (arguments : List String) : Step (List String) := do
  let files ← ofExcept .file (Batch.expand (← get).tree arguments)
  if files.isEmpty then throw .noGraphFiles
  return files

/-! ## Working on graphs -/

/-- Prints what there is to say about an outcome. -/
def printOutcome (c : Config) (quiet : Bool) (o : Batch.Outcome) : Step Unit := do
  let color := (← get).color
  match o.failure?, o.result? with
  | some f, _ => warn (errorLabel color "error:" ++ s!" {f.message}\n")
  | none, some r => printBytes (resultReport c color quiet o r)
  | none, none => pure ()

/-- Works on graph files. -/
def run (env : Environment) (o : Options) (arguments : List String) : Step Unit := do
  let c ← loadConfig o
  let files ← inputs arguments
  let store? ← if c.batch.cache then some <$> openStore (← cacheDirectory env c) else pure none
  let s ← get
  let request : Batch.Request := ⟨files, c, store?, s.tracing.level, 0, false⟩
  let (outcomes, w) := Batch.process request ⟨s.tree, s.tracing.recorder, #[], .empty⟩
  set ({ s with tree := w.tree }.record w.recorder)
  outcomes.forM (printOutcome c o.quiet)
  if o.timings then
    warn (Timing.report (w.timer.record "print" 0 "") (outcomes.map fileTime))
  let failed := outcomes.countP (·.failure?.isSome)
  if 0 < failed then throw (.filesFailed failed outcomes.length)

/-- Runs some stages on the graph at a path. The graph is that of the file. -/
def runOn (settings : Pipeline.Settings) (path : String) :
    Step (Except Error (Graph × Pipeline.Result)) := do
  let s ← get
  match GraphFile.load s.tree path with
  | .error e => return .error (.load e)
  | .ok (g, _) =>
    let (result, journal) :=
      Pipeline.run ⟨settings, path, s.tracing.level, 0, false⟩ s.tracing.recorder (some g)
    set (s.record journal.recorder)
    match result with
    | .error f => return .error (.pipeline f)
    | .ok r => return .ok (g, r)

/-- Checks one file. The answer tells whether it is fine. -/
def checkFile (quiet : Bool) (path : String) : Step Bool := do
  let result ← runOn ⟨false, false, false, false, true⟩ path
  let color := (← get).color
  match result with
  | .ok (g, _) =>
    unless quiet do
      let size := s!"({g.blockCount} blocks, {g.opCount} ops)"
      print (okLabel color "ok" ++ s!"   {path} {remark color size}\n")
    return true
  | .error e =>
    warn (errorLabel color "FAIL" ++ s!" {path}\n{e.message}\n")
    return false

/-- Checks graph files. -/
def check (o : Options) (arguments : List String) : Step Unit := do
  let files ← inputs arguments
  let fine ← files.mapM (checkFile o.quiet)
  let invalid := fine.countP (!·)
  if 0 < invalid then throw (.filesInvalid invalid files.length)

/-- Shows the order of a graph. -/
def order (path : String) : Step Unit := do
  let (_, r) ← ofExcept id (← runOn ⟨true, true, false, false, true⟩ path)
  print (orderReport r)

/-! ## Housekeeping -/

/-- Removes all kept results. -/
def cleanCache (env : Environment) (o : Options) : Step Unit := do
  let directory ← cacheDirectory env (← loadConfig o)
  let store ← openStore directory
  change .cacheClean store.clear
  unless o.quiet do print s!"cleaned {directory}\n"

/-- Shows where results are kept, and how much there is. -/
def showCache (env : Environment) (o : Options) : Step Unit := do
  let directory ← cacheDirectory env (← loadConfig o)
  print s!"{directory}\n"
  unless o.quiet do
    let store ← openStore directory
    let usage ← ofExcept .cacheScan (store.usage (← get).tree)
    print s!"  {usage.text}\n"

/-- Writes the default configuration. -/
def initConfig (o : Options) : Step Unit := do
  match (← get).tree.stat Config.fileName with
  | .ok _ => unless o.force do throw .configThere
  | .error e => unless e.cause = .notFound do throw (.file e)
  change .configWrite (·.write Config.fileName Config.default.encode)
  unless o.quiet do print s!"wrote {Config.fileName}\n"

def showConfig (o : Options) : Step Unit := do
  printBytes (← loadConfig o).encode

def version (o : Options) : Step Unit := do
  match o.versionFormat with
  | "pretty" => print (BuildInfo.current.text (← get).color)
  | "json" => print BuildInfo.current.json
  | name => throw (.versionFormat name)

/-! ## Command lines -/

/-- The action of a command. -/
def perform (env : Environment) (o : Options) (arguments : List String) : Verb → Step Unit
  | .run => run env o arguments
  | .check => check o arguments
  | .order => order (arguments.headD "")
  | .cacheClean => cleanCache env o
  | .cacheDir => showCache env o
  | .configInit => initConfig o
  | .configShow => showConfig o
  | .version => version o
  | .root | .cache | .config | .help | .completion => pure ()

def interpret (env : Environment) (commandLine : List String) : Step Unit := do
  let (verb, rest) := Verb.find commandLine
  if verb = .root then
    match Verb.names Verb.root.knownFlags rest with
    | name :: _ => throw (.unknownCommand name)
    | [] => pure ()
  let (o, arguments) ← ofExcept .flag (parseFlags verb.flags none {} rest)
  if o.help then return
  if o.version then
    print s!"{BuildInfo.program} version {BuildInfo.current.version}\n"
    return
  if verb.isGroup then return
  ofExcept .arity (verb.checkArity arguments)
  setUp env o
  perform env o arguments verb

end Step

/-- What a command line leads to. -/
structure Completion where
  exitCode : Nat
  output : ByteArray
  errors : ByteArray
  tree : Files.Tree

def execute (env : Environment) (t : Files.Tree) (commandLine : List String) : Completion :=
  match StateT.run (ExceptT.run (Step.interpret env commandLine)) (Session.start t) with
  | (.ok _, s) => ⟨0, s.close.output, s.close.errors, s.close.tree⟩
  | (.error e, s) =>
    let s := (s.warn e.report).close
    ⟨e.exitCode, s.output, s.errors, s.tree⟩

end Flowgraph.Command
