import Flowgraph.Config.Basic
import Flowgraph.Files.Tree
import Flowgraph.Toml.Writer

/-!
# Configuration files

A configuration file is a TOML document. What it leaves out keeps its default, and what it has too
much is an error. Directories in it are relative to the file. Without an explicit path the file is
looked for in a directory and in all those above it.

## Looking for a file

The search goes from a directory to the root and takes the first path of the right name that leads
anywhere. No such path is not an error; the defaults hold then.
-/

namespace Flowgraph.Config

open Toml (FieldReader Reading)
open Files (Tree FileError)

def fileName : String := "cfgprep.toml"

/-- Why there is no configuration. -/
inductive Error where
  /-- The file cannot be read. -/
  | unreadable (path : String) (e : FileError)
  /-- The file is no document of the expected shape. -/
  | notADocument (path : String)
  | unknownKeys (path : String) (keys : List Toml.Key)
  | invalid (path : String) (problems : List Problem)
  /-- It cannot be told whether a file is there. -/
  | unknownWhether (path : String) (e : FileError)
deriving DecidableEq

def Error.message : Error → String
  | .unreadable path _ | .notADocument path => s!"{path}: failed to parse TOML"
  | .unknownKeys path keys =>
    s!"{path}: unknown keys: " ++ ", ".intercalate (keys.map Toml.keyText)
  | .invalid path ps => s!"{path}: {Problem.messages ps}"
  | .unknownWhether path e => s!"failed to stat {Text.quoted path}: {e.message}"

/-- Is a missing file the cause of the error? -/
def Error.isMissing : Error → Bool
  | .unreadable _ e | .unknownWhether _ e => e.cause = .notFound
  | _ => false

/-! ## Reading -/

def pipelineFields : List (FieldReader Pipeline.Settings) :=
  Pipeline.Settings.flags.map fun f ↦
    ⟨f.name, fun _ n s ↦ do return f.set s (← Reading.boolean n)⟩

def batchFields : List (FieldReader BatchSettings) :=
  [⟨"jobs", fun _ n s ↦ do return { s with jobs := ← Reading.integer n }⟩,
   ⟨"cache", fun _ n s ↦ do return { s with cache := ← Reading.boolean n }⟩,
   ⟨"cache_dir", fun _ n s ↦ do return { s with cacheDirectory := ← Reading.string n }⟩]

def outputFields : List (FieldReader OutputSettings) :=
  [⟨"format", fun _ n s ↦ do return { s with format := ← Reading.string n }⟩,
   ⟨"emit", fun _ n s ↦ do return { s with emit := ← Reading.strings n }⟩,
   ⟨"dir", fun _ n s ↦ do return { s with directory := ← Reading.string n }⟩]

def fields : List (FieldReader Config) :=
  [⟨"pipeline", fun path n c ↦ do
     return { c with pipeline := ← Reading.table pipelineFields path n c.pipeline }⟩,
   ⟨"driver", fun path n c ↦ do
     return { c with batch := ← Reading.table batchFields path n c.batch }⟩,
   ⟨"output", fun path n c ↦ do
     return { c with output := ← Reading.table outputFields path n c.output }⟩]

/-- Does a document have a key in a table under exactly these names? -/
def hasKey (d : Toml.Document) (table key : String) : Bool :=
  match d.root.get? table with
  | some (.table t) => (Toml.Fields.get? t key).isSome
  | _ => false

/-- A directory of the file at `path`, if it is relative and named under its proper key. -/
def besideFile (path directory : String) (named : Bool) : String :=
  if named && directory ≠ "" && !Files.isAbsolute directory then
    Files.join [Files.directory path, directory]
  else directory

/-- Reads the configuration in the bytes of the file at `path`. -/
def ofBytes (path : String) (bytes : ByteArray) : Except Error Config :=
  match Toml.Document.ofBytes? bytes with
  | none => .error (.notADocument path)
  | some d =>
    match (Reading.record fields [] d.root default).run [] with
    | none => .error (.notADocument path)
    | some (c, used) =>
      match d.unused used with
      | [] =>
        let c : Config := { c with
          batch.cacheDirectory :=
            besideFile path c.batch.cacheDirectory (hasKey d "driver" "cache_dir")
          output.directory := besideFile path c.output.directory (hasKey d "output" "dir") }
        match c.problems with
        | [] => .ok c
        | ps => .error (.invalid path ps)
      | keys => .error (.unknownKeys path keys)

def load (t : Tree) (path : String) : Except Error Config :=
  match t.read path with
  | .ok bytes => ofBytes path bytes
  | .error e => .error (.unreadable path e)

/-! ## Finding the file -/

/-- A directory and those above it, as paths. -/
def ancestors (path : String) : List String :=
  let names := (Files.elements path).filter (· ≠ "")
  (List.range (names.length + 1)).reverse.map fun n ↦ Tree.pathOf (names.take n)

/-- The first of the paths that leads anywhere. -/
def firstPresent (t : Tree) : List String → Except Error (Option String)
  | [] => .ok none
  | path :: rest =>
    match t.stat path with
    | .ok _ => .ok (some path)
    | .error e => if e.cause = .notFound then firstPresent t rest
      else .error (.unknownWhether path e)

/-- Looks for a configuration file in a directory and in those above it. -/
def find (t : Tree) (start : String) : Except Error (Option String) :=
  let directory := Files.absolutePath (Tree.pathOf t.workingDirectory) start
  firstPresent t ((ancestors directory).map fun d ↦ Files.join [d, fileName])

/-- The configuration at an explicit path, or in the file that is found, or the default one; with
the path it comes from. -/
def resolve (t : Tree) (start explicit : String) : Except Error (Config × String) := do
  if explicit ≠ "" then
    return (← load t explicit, explicit)
  match ← find t start with
  | none => return (default, "")
  | some path => return (← load t path, path)

/-! ## Writing -/

def encode (c : Config) : ByteArray :=
  let text (s : String) : Toml.Datum := .text s.toUTF8
  Toml.write
    [⟨["pipeline"], false, Pipeline.Settings.flags.map fun f ↦ (f.name, .bool (f.get c.pipeline))⟩,
     ⟨["driver"], false,
      [("jobs", .int c.batch.jobs), ("cache", .bool c.batch.cache),
        ("cache_dir", text c.batch.cacheDirectory)]⟩,
     ⟨["output"], false,
      [("format", text c.output.format), ("emit", .texts (c.output.emit.map String.toUTF8)),
        ("dir", text c.output.directory)]⟩]

end Flowgraph.Config
