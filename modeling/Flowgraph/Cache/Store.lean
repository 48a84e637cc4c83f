import Flowgraph.Cache.Payload
import Flowgraph.Cache.Usage
import Flowgraph.Digest.Framed
import Flowgraph.Files.Tree
import Flowgraph.Text.Quoted

/-!
# Stores of results

A store keeps one file for each result, named after the key of the result, in a directory named
after the first byte of the key. A result that is missing, or stored under another schema, is not
found; it is no error.

## Replacing

A result is written to a file next to its final place, which then takes the name of the result. In
the tree this is one step, and a reader finds the old record or the new one.

## Removing

Only files with the suffix of results count, for the size of a store and for clearing it. Other
files and the directories stay.
-/

namespace Flowgraph.Cache

open Files (Tree FileError)

/-- A store in a directory. -/
structure Store where
  directory : String
deriving DecidableEq

/-- Why a result cannot be looked up. -/
inductive Error where
  | unreadable (e : FileError)
  | corrupt
deriving DecidableEq

def Error.message : Error → String
  | .unreadable e => e.message
  | .corrupt => "corrupt cache entry"

namespace Store

def suffix : String := ".cfgres"

/-- Makes sure that the directory of a store is there. -/
def prepare (s : Store) (t : Tree) : Except FileError Unit × Tree := t.makeDirectories s.directory

def pathOf (s : Store) (key : ByteArray) : String :=
  let name := Text.hexBytes key
  Files.join [s.directory, String.ofList (name.toList.take 2), name ++ suffix]

/-- The record under a key, with every field zero if there is none. -/
def lookup (s : Store) (t : Tree) (key : ByteArray) : Except Error Payload :=
  match t.read (s.pathOf key) with
  | .ok bytes =>
    match Payload.decode? bytes with
    | some p => .ok p
    | none => .error .corrupt
  | .error e => if e.cause = .notFound then .ok .zero else .error (.unreadable e)

/-- Stores a record under a key, in place of any other. -/
def insert (s : Store) (t : Tree) (key : ByteArray) (p : Payload) : Except FileError Unit × Tree :=
  t.plant (s.pathOf key) (.file { p with schema := currentSchema }.encode)

/-- The files of the results with their contents, sorted by path. -/
def entries (s : Store) (t : Tree) : Except FileError (List (String × ByteArray)) :=
  match t.walk s.directory with
  | .ok files => .ok (files.filter fun (path, _) ↦ path.endsWith suffix)
  | .error e => if e.cause = .notFound then .ok [] else .error e

def usage (s : Store) (t : Tree) : Except FileError Usage := do
  let files ← s.entries t
  return ⟨files.length, files.foldl (fun sum (_, bytes) ↦ sum + bytes.size) 0⟩

/-- Removes every result. -/
def clear (s : Store) (t : Tree) : Except FileError Tree := do
  (← s.entries t).foldlM (fun t (path, _) ↦ t.remove path) t

end Store

end Flowgraph.Cache
