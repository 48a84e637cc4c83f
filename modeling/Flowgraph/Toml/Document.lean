import Std.Data.HashSet
import Flowgraph.Toml.Statement

/-!
# TOML documents

Statements build a document: a tree of tables, arrays of tables and values. A path that runs through
an array of tables means its newest table. Tables that only lie on the way to a header or a dotted
key are *implicit*: one later statement may still define them. An assignment of an array is the one
that may replace what its key had before.

Beside the tree a document keeps the paths that its text defines, in order and with repetitions, so
that a reader can tell which of them it did not use.

## Why implicit tables are marked

A header may name a table whose parents have no header yet, and those may follow later. A table that
was written out may not be opened again. The mark tells the two apart.
-/

namespace Flowgraph.Toml

/-- What a key of a document stands for. -/
inductive Node where
  | str (s : String)
  | int (n : Int)
  | bool (b : Bool)
  /-- A floating-point number or a date. -/
  | other
  /-- An array written as a value. -/
  | list (items : List Node)
  | table (fields : List (String × Node))
  /-- An array of tables that headers build, its newest table apart. -/
  | tables (newest : List (String × Node)) (older : List (List (String × Node)))

/-- The keys of a table with what they stand for. -/
abbrev Fields := List (String × Node)

namespace Fields

/-- What a key stands for. -/
def get? (t : Fields) (k : String) : Option Node := t.lookup k

/-- Sets a key, in its place if the table has it. -/
def set (t : Fields) (k : String) (n : Node) : Fields :=
  if (t.lookup k).isSome then t.map fun e ↦ if e.1 = k then (k, n) else e else t ++ [(k, n)]

/-- Changes the table at the end of a path; the second part of the result is passed on. -/
def alter? {α : Type} : Key → (Fields → Option (Fields × α)) → Fields → Option (Fields × α)
  | [], f, t => f t
  | k :: path, f, t =>
    match t.get? k with
    | some (.table sub) => do
      let (sub, a) ← alter? path f sub
      return (t.set k (.table sub), a)
    | some (.tables newest older) => do
      let (newest, a) ← alter? path f newest
      return (t.set k (.tables newest older), a)
    | _ => none

/-- Empty tables, each of them in the one before. -/
def chain : Key → Fields
  | [] => []
  | k :: path => [(k, .table (chain path))]

/-- Makes sure that the tables along a path exist, and counts those that were there before. -/
def reach? : Key → Fields → Option (Fields × Nat)
  | [], t => some (t, 0)
  | k :: path, t =>
    match t.get? k with
    | none => some (t ++ chain (k :: path), 0)
    | some (.table sub) => do
      let (sub, count) ← reach? path sub
      return (t.set k (.table sub), count + 1)
    | some (.tables newest older) => do
      let (newest, count) ← reach? path newest
      return (t.set k (.tables newest older), count + 1)
    | some _ => none

end Fields

/-- A document while it is built. -/
structure Document where
  root : Fields
  /-- The tables that a later statement may still define. -/
  implicit : Std.HashSet Key
  /-- The paths whose last assignment is an array. -/
  arrays : Std.HashSet Key
  /-- The paths that the text defines, newest first. -/
  defined : List Key

/-- A step of the construction; it fails on a document that contradicts itself. -/
abbrev Building := StateT Document Option

namespace Building

def markImplicit (path : Key) : Building Unit :=
  modify fun d ↦ { d with implicit := d.implicit.insert path }

/-- Records that the text defines a path. -/
def define (path : Key) : Building Unit :=
  modify fun d ↦ { d with defined := path :: d.defined }

/-- Records whether a path was last assigned an array. -/
def setArray (path : Key) (isArray : Bool) : Building Unit :=
  modify fun d ↦
    { d with arrays := if isArray then d.arrays.insert path else d.arrays.erase path }

/-- Changes the table at the end of a path, and gives what the change tells. -/
def update {α : Type} (path : Key) (f : Fields → Option (Fields × α)) : Building α := fun d ↦ do
  let (root, a) ← d.root.alter? path f
  return (a, { d with root })

/-- Puts a value under a key of the table at `path`. A key that is taken keeps its value if it is
implicit, gives it up if its last assignment is an array, and is an error otherwise. -/
def put (path : Key) (k : String) (n : Node) : Building Unit := do
  let d ← get
  let here := path ++ [k]
  let isArray := d.arrays.contains here
  let isImplicit := d.implicit.contains here
  let taken ← update path fun t ↦
    match t.get? k with
    | none => some (t.set k n, false)
    | some _ =>
      if isArray then some (t.set k n, true) else if isImplicit then some (t, true) else none
  if taken then
    modify fun d ↦ { d with implicit := d.implicit.erase here }

/-- Makes sure that the tables along a path exist, and marks the new ones as implicit. -/
def reach (path : Key) : Building Unit := fun d ↦ do
  let (root, count) ← d.root.reach? path
  let new := (List.range path.length).drop count
  let implicit := new.foldl (fun marked i ↦ marked.insert (path.take (i + 1))) d.implicit
  return ((), { d with root, implicit })

def openTable (path : Key) : Building Unit := do
  reach path.dropLast
  put path.dropLast (path.getLast?.getD "") (.table [])

/-- Opens a new table of the array of tables at a path. -/
def openNextTable (path : Key) : Building Unit := do
  reach path.dropLast
  let k := path.getLast?.getD ""
  update path.dropLast fun t ↦
    match t.get? k with
    | none => some (t.set k (.tables [] []), ())
    | some (.tables newest older) => some (t.set k (.tables [] (newest :: older)), ())
    | some _ => none

/-- Opens the tables that the leading parts of a dotted key name, and gives the path of the table
that holds the last part. -/
def openParts : (context : Key) → (parts : Key) → Building Key
  | context, [] => pure context
  | context, k :: parts => do
    let here := context ++ [k]
    markImplicit here
    openTable here
    openParts here parts

end Building

open Building

def Value.isArray : Value → Bool
  | .array _ => true
  | _ => false

/-- The path under which the kind of a value is kept: an empty key below a table counts as the
table. -/
def kindPath (context : Key) (k : String) : Key :=
  let path := if k.isEmpty then context else context ++ [k]
  if path.isEmpty then [""] else path

mutual

/-- Builds the value of the key `k` in the table at `context`; `inArray` says that it is an item of
an array. -/
def Value.build (context : Key) (k : String) (inArray : Bool) : Value → Building Node
  | .str s => pure (.str s)
  | .int n => pure (.int n)
  | .bool b => pure (.bool b)
  | .other => pure .other
  | .array items => do
    setArray (kindPath context k) true
    return .list (← buildItems context k items)
  | .inline entries => do
    let here := context ++ [k]
    markImplicit here
    if inArray then openNextTable here else openTable here
    return .table (← buildEntries here entries [])

def buildItems (context : Key) (k : String) : List Value → Building (List Node)
  | [] => pure []
  | v :: vs => do
    let n ← v.build context k true
    return n :: (← buildItems context k vs)

/-- Builds the entries of the inline table at `context`, after those in `done`. The value of the
table itself has an entry under the last part of its key alone. -/
def buildEntries (context : Key) : List (Key × Value) → Fields → Building Fields
  | [], done => pure done
  | (parts, v) :: entries, done => do
    let holder ← openParts context parts.dropLast
    let k := parts.getLast?.getD ""
    define (holder ++ [k])
    let n ← v.build holder k false
    put holder k n
    setArray (kindPath holder k) v.isArray
    buildEntries context entries (done.set k n)

end

/-- Carries out an assignment in the table at `context`. -/
def assign (context parts : Key) (v : Value) : Building Unit := do
  let holder ← openParts context parts.dropLast
  let k := parts.getLast?.getD ""
  define (holder ++ [k])
  let n ← v.build holder k false
  put holder k n
  setArray (kindPath holder k) v.isArray

/-- Carries out statements, the first ones in the table at `context`. -/
def carryOut : (context : Key) → List Statement → Building Unit
  | _, [] => pure ()
  | context, .assign parts v :: rest => do
    assign context parts v
    carryOut context rest
  | _, .table path :: rest => do
    openTable path
    setArray path false
    define path
    carryOut path rest
  | _, .tableArray path :: rest => do
    openNextTable path
    setArray path false
    define path
    carryOut path rest

def Document.empty : Document := ⟨[], ∅, ∅, []⟩

def Document.ofStatements? (l : List Statement) : Option Document :=
  (carryOut [] l).run .empty |>.map Prod.snd

def Document.ofBytes? (bytes : ByteArray) : Option Document := do
  ofStatements? (← statements (← characters? bytes))

end Flowgraph.Toml
