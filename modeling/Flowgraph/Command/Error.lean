import Flowgraph.Command.Verb
import Flowgraph.Config.File
import Flowgraph.GraphFile.Storage
import Flowgraph.Pipeline.Run
import Flowgraph.Trace.Sink

/-!
# Errors of commands

Why a command ends without success. Nearly all of them are reported in one line with exit code 1.
-/

namespace Flowgraph.Command

open Files (FileError)

/-- Why there is no place for the results of the user. -/
inductive CacheHomeError where
  | relative
  | undefined
deriving DecidableEq

def CacheHomeError.message : CacheHomeError → String
  | .relative => "path in $XDG_CACHE_HOME is relative"
  | .undefined => "neither $XDG_CACHE_HOME nor $HOME are defined"

/-- Why a command ends without success. -/
inductive Error where
  | unknownCommand (name : String)
  | flag (e : FlagError)
  | arity (e : ArityError)
  | traceName (e : Trace.UnknownName)
  | traceSink (e : Trace.SinkError)
  | traceOutput (e : FileError)
  | cpuProfile (e : FileError)
  | executionProfile (e : FileError)
  | config (e : Config.Error)
  | settings (problems : List Config.Problem)
  | file (e : FileError)
  | noGraphFiles
  | cacheHome (e : CacheHomeError)
  | cacheDirectory (e : FileError)
  | cacheClean (e : FileError)
  | cacheScan (e : FileError)
  | load (e : GraphFile.Error)
  | pipeline (f : Pipeline.Failure)
  | filesFailed (failed total : Nat)
  | filesInvalid (invalid total : Nat)
  | configThere
  | configWrite (e : FileError)
  | versionFormat (name : String)
deriving DecidableEq

namespace Error

def message : Error → String
  | .unknownCommand name =>
    let close := Verb.suggestions name
    s!"unknown command {Text.quoted name} for {Text.quoted Verb.root.path}"
      ++ (if close.isEmpty then ""
          else "\n\nDid you mean this?\n" ++ String.join (close.map fun s ↦ s!"\t{s}\n"))
  | .flag e => e.message
  | .arity e => e.message
  | .traceName e => e.message
  | .traceSink e => s!"create tracer: {e.message}"
  | .traceOutput e => s!"create tracer: open trace output: {e.message}"
  | .cpuProfile e => s!"start cpu profile: {e.message}"
  | .executionProfile e => s!"start runtime trace: {e.message}"
  | .config e => e.message
  | .settings ps => Config.Problem.messages ps
  | .file e => e.message
  | .noGraphFiles => "no graph files found"
  | .cacheHome e => s!"locate user cache dir: {e.message}"
  | .cacheDirectory e => s!"create cache dir: {e.message}"
  | .cacheClean e => s!"failed to clean cache: {e.message}"
  | .cacheScan e => s!"scan cache: {e.message}"
  | .load e => e.message
  | .pipeline f => f.message?.getD "runtime error"
  | .filesFailed failed total => s!"{failed} of {total} files failed"
  | .filesInvalid invalid total => s!"{invalid} of {total} files invalid"
  | .configThere => s!"{Config.fileName} already exists (use --force to overwrite)"
  | .configWrite e => s!"failed to write {Config.fileName}: {e.message}"
  | .versionFormat name => s!"unsupported format {Text.quoted name} (must be pretty or json)"

/-- What is printed about the error. A broken precondition is no ordinary error. -/
def report : Error → String
  | .pipeline (.breach b) => "panic: " ++ b.message?.getD "runtime error" ++ "\n"
  | e@(.unknownCommand _) => s!"Error: {e.message}\nRun '{Verb.root.path} --help' for usage.\n"
  | e => s!"Error: {e.message}\n"

/-- The exit code of the program after the error. -/
def exitCode : Error → Nat
  | .pipeline (.breach _) => 2
  | _ => 1

end Error

end Flowgraph.Command
