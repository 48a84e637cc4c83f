import Flowgraph.Command.Execute

/-!
# The program

The program copies the files that a command line can reach into a tree, executes the command line
on it, and carries what has changed back to the disk.

Only some contents are copied: those of graph files, of kept results, and of files that the command
line or a configuration names. Other files are there without their content, which no command looks
at.
-/

namespace Flowgraph.Program

open Files (Tree Place Entry)
open Command (Environment)

/-- The names of a path on the way from the root. -/
def placeOf (workingDirectory path : String) : Place :=
  (Files.elements (Files.absolutePath workingDirectory path)).filter (· ≠ "")

/-- Is the content of a file copied wherever it is found? -/
def isRead (path : String) : Bool := Batch.isGraphFile path || path.endsWith Cache.Store.suffix

/-- The paths that an argument can name: itself and what follows an equals sign. -/
def pathsIn (argument : String) : List String :=
  let value := String.ofList ((argument.toList.dropWhile (· ≠ '=')).drop 1)
  [argument, value].filter (· ≠ "")

/-- Copies what stands at a place. A file that is named has its content copied, and a directory
everything below it. -/
partial def copyEntry (t : Tree) (p : Place) (named : Bool) : IO Tree := do
  let path := (← IO.currentDir) / Tree.pathOf p
  if ← path.isDir then
    (← path.readDir).foldlM (fun t e ↦ copyEntry t (p ++ [e.fileName]) false) (t.set p .directory)
  else if ← path.pathExists then
    let bytes ← if named || isRead (Tree.pathOf p) then IO.FS.readBinFile path else pure .empty
    return t.set p (.file bytes)
  else return t

/-- Copies the directories on the way to a place. -/
def copyAncestors (t : Tree) (p : Place) : IO Tree :=
  (List.range p.length).foldlM
    (fun t n ↦ do
      let above := p.take n
      let path := (← IO.currentDir) / Tree.pathOf above
      if ← path.isDir then return t.set above .directory
      else if ← path.pathExists then return t.set above (.file .empty)
      else return t)
    t

/-- Copies what a path leads to and the directories on the way to it. -/
def copyPath (t : Tree) (path : String) : IO Tree := do
  let p := placeOf (Tree.pathOf t.workingDirectory) path
  copyEntry (← copyAncestors t p) p true

/-- The directories of a configuration. -/
def directoriesOf (t : Tree) (explicit : String) : List String :=
  match Config.resolve t "." explicit with
  | .ok (c, _) => [c.batch.cacheDirectory, c.output.directory].filter (· ≠ "")
  | .error _ => []

/-- Copies all that a command line can reach. -/
def copyTree (env : Environment) (commandLine : List String) : IO Tree := do
  let here := placeOf "/" (← IO.currentDir).toString
  let above := Config.ancestors (Tree.pathOf here)
  let configFiles := above.map fun d ↦ Files.join [d, Config.fileName]
  let cache := (Command.Step.cacheHome env).toOption.map fun d ↦ Files.join [d, BuildInfo.program]
  let named := commandLine.flatMap pathsIn
  let t ← (configFiles ++ cache.toList ++ named).foldlM copyPath (.empty here)
  ("" :: named).flatMap (directoriesOf t) |>.foldlM copyPath t

/-- Carries the changes from one tree to another back to the disk: first what is gone, then what is
new or different, directories before what they hold. -/
def carryBack (before after : Tree) : IO Unit := do
  let base ← IO.currentDir
  for (p, _) in before.entries do
    if (after.get? p).isNone then IO.FS.removeFile (base / Tree.pathOf p)
  for (p, e) in after.entries.mergeSort (fun a b ↦ a.1.length ≤ b.1.length) do
    let path := base / Tree.pathOf p
    match e, before.get? p with
    | .directory, some .directory => pure ()
    | .directory, _ => IO.FS.createDirAll path
    | .file new, some (.file old) => if new != old then IO.FS.writeBinFile path new
    | .file new, _ => IO.FS.writeBinFile path new

end Flowgraph.Program

/-- Executes the command line of the program. -/
def main (commandLine : List String) : IO UInt32 := do
  let stdout ← IO.getStdout
  let env : Flowgraph.Command.Environment :=
    ⟨(← IO.getEnv "XDG_CACHE_HOME").getD "", (← IO.getEnv "HOME").getD "", ← stdout.isTty⟩
  let before ← Flowgraph.Program.copyTree env commandLine
  let result := Flowgraph.Command.execute env before commandLine
  Flowgraph.Program.carryBack before result.tree
  stdout.write result.output
  (← IO.getStderr).write result.errors
  return result.exitCode.toUInt32
