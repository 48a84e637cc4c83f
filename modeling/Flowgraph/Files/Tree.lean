import Flowgraph.Files.Node
import Flowgraph.Files.Path

/-!
# Trees of files

A path is followed element by element through a tree: every element but the last has to lead to a
directory. Operations on a tree fail with the operation, the path and the cause, as messages show
them.

## Places

A path is resolved to a place, the list of names from the root, before anything is done there. A
file that is open is known by its place. There are no links, so that different places hold different
files, and a place is not moved while it is open.

## Writing

Opening a file for writing empties it at once. The bytes come with a second operation, which writes
over the front of what the file then holds; if somebody else has written a longer content in
between, its end stays.

## Failures

The checks and their order are those of a file system that follows paths name by name, since the
cause of a failure is part of the messages. A failure on the way leaves what was done before it,
such as the directories that were made already.
-/

namespace Flowgraph.Files

/-- A tree of files, and the directory that relative paths start from. -/
structure Tree where
  root : Node
  workingDirectory : Place

/-- Why an operation fails. -/
inductive Cause where
  | notFound
  | notADirectory
  | isADirectory
  | alreadyThere
  | notEmpty
  | nameTooLong
  | invalidName
  | busy
deriving DecidableEq

def Cause.message : Cause → String
  | .notFound => "no such file or directory"
  | .notADirectory => "not a directory"
  | .isADirectory => "is a directory"
  | .alreadyThere => "file exists"
  | .notEmpty => "directory not empty"
  | .nameTooLong => "file name too long"
  | .invalidName => "invalid argument"
  | .busy => "device or resource busy"

/-- A failed operation on a tree. -/
structure FileError where
  operation : String
  path : String
  cause : Cause
deriving DecidableEq

def FileError.message (e : FileError) : String := s!"{e.operation} {e.path}: {e.cause.message}"

namespace Tree

/-- A tree whose only directories are those on the way to a working directory. -/
def empty (workingDirectory : Place) : Tree :=
  ⟨Node.put workingDirectory .directory (.directory []), workingDirectory⟩

def get? (t : Tree) (p : Place) : Option Entry := (t.root.get? p).map Node.entry

def set (t : Tree) (p : Place) (e : Entry) : Tree := { t with root := t.root.put p e }

/-- Takes the entry at a place away. -/
def erase (t : Tree) (p : Place) : Tree := { t with root := t.root.erase p }

/-- All entries with their places, a directory before what it holds. -/
def entries (t : Tree) : List (Place × Entry) := t.root.entries

def pathOf (p : Place) : String := "/" ++ "/".intercalate p

/-! ## Following paths -/

/-- The length in bytes that a path has to stay below. -/
def pathBound : Nat := 4096

/-- What is wrong with a path whatever the tree holds. -/
def checkPath (path : String) : Except Cause Unit :=
  if path = "" then .error .notFound
  else if path.toList.contains '\x00' then .error .invalidName
  else if pathBound ≤ path.utf8ByteSize then .error .nameTooLong
  else .ok ()

/-- The place that elements lead to and the node there. The nodes on the way are those after the
root, latest first. The last element may lead to nothing. -/
def follow (root : Node) : List (String × Node) → List String → Except Cause (Place × Option Node)
  | way, [] => .ok ((way.map Prod.fst).reverse, some ((way.head?.map Prod.snd).getD root))
  | way, e :: rest =>
    match (way.head?.map Prod.snd).getD root with
    | .file _ => .error .notADirectory
    | .directory children =>
      if e = "" ∨ e = "." then follow root way rest
      else if e = ".." then follow root way.tail rest
      else if 255 < e.utf8ByteSize then .error .nameTooLong
      else
        match children.lookup e with
        | some n => follow root ((e, n) :: way) rest
        | none =>
          if rest.isEmpty then .ok (((way.map Prod.fst).reverse) ++ [e], none)
          else .error .notFound

def locate (t : Tree) (path : String) : Except Cause (Place × Option Node) := do
  checkPath path
  match t.root.trail? (if isAbsolute path then [] else t.workingDirectory) with
  | some way => follow t.root way (elements path)
  | none => throw .notFound

def find (t : Tree) (path : String) : Except Cause (Place × Node) := do
  match ← t.locate path with
  | (p, some n) => return (p, n)
  | (_, none) => throw .notFound

/-- The tree as seen from another directory. A path that leads nowhere means the root. -/
def enter (t : Tree) (path : String) : Tree :=
  { t with workingDirectory := ((t.locate path).map Prod.fst).toOption.getD [] }

/-! ## Operations -/

def stat (t : Tree) (path : String) : Except FileError Entry :=
  match t.find path with
  | .ok (_, n) => .ok n.entry
  | .error c => .error ⟨"stat", path, c⟩

def read (t : Tree) (path : String) : Except FileError ByteArray :=
  match t.find path with
  | .ok (_, .file bytes) => .ok bytes
  | .ok (_, .directory _) => .error ⟨"read", path, .isADirectory⟩
  | .error c => .error ⟨"open", path, c⟩

/-- The path up to its last element, with the slash before it. -/
def beforeLast (path : String) : String := (splitLast (trimSlashes path)).1

/-- The path up to the slash before its last element. -/
def parentPath (path : String) : String := String.ofList (beforeLast path).toList.dropLast

/-- The last element of a path that has slashes at its end left out. -/
def lastElement (path : String) : String := (splitLast (trimSlashes path)).2

/-- Does a path end in an element that can only be a directory? -/
def endsAtDirectory (path : String) : Bool :=
  match (elements path).getLast? with
  | some e => e = "" || e = "." || e = ".."
  | none => true

/-- Opens a file to write it from its start: it is empty from now on, whatever it held before, and
it may be new. Comes with the place of the file. -/
def create (t : Tree) (path : String) : Except FileError (Place × Tree) :=
  let target := if endsAtDirectory path then beforeLast path ++ "." else path
  match (do checkPath path; t.locate target) with
  | .error c => .error ⟨"open", path, c⟩
  | .ok (_, some (.directory _)) => .error ⟨"open", path, .isADirectory⟩
  | .ok (p, _) => .ok (p, t.set p (.file .empty))

/-- Bytes over those that a file holds: what it holds behind them stays. -/
def overlay (bytes old : ByteArray) : ByteArray := bytes ++ old.extract bytes.size old.size

/-- Writes bytes from the start of an open file. Two who open it before either of them writes leave
a mixture. -/
def fill (t : Tree) (p : Place) (bytes : ByteArray) : Tree :=
  match t.get? p with
  | some (.file old) => t.set p (.file (overlay bytes old))
  | _ => t

/-- Sets the content of a file, which may be new, with nobody else at work in between. -/
def write (t : Tree) (path : String) (bytes : ByteArray) : Except FileError Tree :=
  (t.create path).map fun (p, t) ↦ t.fill p bytes

def makeDirectory (t : Tree) (path : String) : Except FileError Tree :=
  match (do checkPath path; t.locate (trimSlashes path)) with
  | .error c => .error ⟨"mkdir", path, c⟩
  | .ok (_, some _) => .error ⟨"mkdir", path, .alreadyThere⟩
  | .ok (p, none) => .ok (t.set p .directory)

/-- Makes a directory and those on the way to it. The first argument bounds the number of elements
that the path still has. -/
def makeDirectoriesUpTo : Nat → Tree → String → Except FileError Unit × Tree
  | 0, t, path => (.error ⟨"mkdir", path, .notFound⟩, t)
  | fuel + 1, t, path =>
    match t.find path with
    | .ok (_, .directory _) => (.ok (), t)
    | .ok (_, .file _) => (.error ⟨"mkdir", path, .notADirectory⟩, t)
    | .error _ =>
      let parent := parentPath path
      let (above, t) := if parent = "" then (.ok (), t) else makeDirectoriesUpTo fuel t parent
      match above with
      | .error e => (.error e, t)
      | .ok _ =>
        match t.makeDirectory path with
        | .ok t => (.ok (), t)
        | .error e =>
          match t.find path with
          | .ok (_, .directory _) => (.ok (), t)
          | _ => (.error e, t)

/-- Makes a directory and those on the way to it, as far as they are missing. What was made before
a failure stays. -/
def makeDirectories (t : Tree) (path : String) : Except FileError Unit × Tree :=
  makeDirectoriesUpTo (path.length + 1) t path

/-- Puts a file or a directory at a path, and directories on the way to it. -/
def plant (t : Tree) (path : String) : Entry → Except FileError Unit × Tree
  | .directory => t.makeDirectories path
  | .file bytes =>
    match t.makeDirectories (Files.directory path) with
    | (.error e, t) => (.error e, t)
    | (.ok _, t) =>
      match t.write path bytes with
      | .error e => (.error e, t)
      | .ok t => (.ok (), t)

/-- Removes a file or an empty directory. A directory cannot be removed by way of dots. -/
def remove (t : Tree) (path : String) : Except FileError Tree :=
  let failed (c : Cause) : Except FileError Tree := .error ⟨"remove", path, c⟩
  match t.find path with
  | .error c => failed c
  | .ok (p, .file _) => .ok (t.erase p)
  | .ok (p, n) =>
    if lastElement path = "" then failed .busy
    else if lastElement path = "." then failed .invalidName
    else if lastElement path = ".." || !n.isEmptyDirectory then failed .notEmpty
    else .ok (t.erase p)

/-! ## Listings -/

/-- The paths of the files below a directory with their contents, sorted. The paths start with that
of the directory. -/
def walk (t : Tree) (path : String) : Except FileError (List (String × ByteArray)) :=
  match t.find path with
  | .error c => .error ⟨"lstat", path, c⟩
  | .ok (_, .file bytes) => .ok [(path, bytes)]
  | .ok (_, n) =>
    .ok <| (n.files.map fun (names, bytes) ↦ (join (path :: names), bytes)).mergeSort
      fun a b ↦ a.1 ≤ b.1

end Tree

end Flowgraph.Files
