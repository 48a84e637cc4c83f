import Flowgraph.Files.Tree
import Flowgraph.GraphFile.Format

/-!
# Graph files in a tree

Loading and saving graphs by path. The suffix of the path tells the format, and a graph without a
name takes that of its file.

## Two steps of writing

Writing a file is opening it, which empties it, and writing the bytes. The two are apart here, since
others can be at work on the same tree. `save` is for a caller that is alone.
-/

namespace Flowgraph.GraphFile

open Files (Tree FileError)

/-- Why a graph cannot be loaded or saved. -/
inductive Error where
  | format (e : FormatError)
  | unreadable (e : FileError)
  | malformed (path : String) (e : GraphFileError)
  | unwritable (e : FileError)
deriving DecidableEq

def Error.message : Error → String
  | .format e => e.message
  | .unreadable e => s!"failed to read graph: {e.message}"
  | .malformed path e => s!"{path}: {e.message}"
  | .unwritable e => s!"failed to write graph: {e.message}"

/-- Is a missing file the cause of the error? -/
def Error.isMissing : Error → Bool
  | .unreadable e | .unwritable e => e.cause = .notFound
  | _ => false

/-- The name that a file gives to its graph. -/
def stem (path : String) : String := Files.baseName (stripSuffix path)

/-- Loads the graph at a path, together with the bytes of its file. -/
def load (t : Tree) (path : String) : Except Error (Graph × ByteArray) := do
  let f ← (GraphFormat.forPath path).mapError .format
  let bytes ← (t.read path).mapError .unreadable
  let g ← (f.decode bytes).mapError (.malformed path)
  return (if g.name.isEmpty then { g with name := (stem path).toUTF8 } else g, bytes)

/-- A graph file that is open and empty, and what is to be written into it. -/
structure Opened where
  path : String
  place : Files.Place
  bytes : ByteArray
deriving DecidableEq

/-- Opens the file at a path for a graph. -/
def create (t : Tree) (path : String) (g : Graph) : Except Error (Opened × Tree) := do
  let f ← (GraphFormat.forPath path).mapError .format
  let (place, t) ← (t.create path).mapError .unwritable
  return (⟨path, place, f.encode g⟩, t)

/-- Writes the graph into its open file. -/
def Opened.write (o : Opened) (t : Tree) : Tree := t.fill o.place o.bytes

def save (t : Tree) (path : String) (g : Graph) : Except Error Tree :=
  (create t path g).map fun (o, t) ↦ o.write t

end Flowgraph.GraphFile
