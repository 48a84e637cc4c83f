/-!
# Nodes of file trees

A node is a file or a directory with the nodes it holds by name. The functions here go down from a
node by a place, the names on the way from it.
-/

namespace Flowgraph.Files

/-- The names on the way from the root. -/
abbrev Place := List String

/-- What stands at a place. -/
inductive Entry where
  | directory
  | file (bytes : ByteArray)

/-- A file, or a directory with all that is below it. -/
inductive Node where
  | file (bytes : ByteArray)
  | directory (children : List (String × Node))

namespace Node

/-- What a node is by itself. -/
def entry : Node → Entry
  | .file bytes => .file bytes
  | .directory _ => .directory

/-- Is the node a directory that holds nothing? -/
def isEmptyDirectory : Node → Bool
  | .directory [] => true
  | _ => false

def get? : Place → Node → Option Node
  | [], n => some n
  | name :: rest, .directory children => (children.lookup name).bind (get? rest)
  | _ :: _, .file _ => none

/-- Gives a name to a node among children, in the place of the one that has it. -/
def withChild (children : List (String × Node)) (name : String) (n : Node) :
    List (String × Node) :=
  if (children.lookup name).isSome then
    children.map fun c ↦ if c.1 = name then (name, n) else c
  else children ++ [(name, n)]

/-- Puts an entry at a place, and directories on the way to it. A directory that is there keeps
what it holds, and nothing can be put below a file. -/
def put : Place → Entry → Node → Node
  | [], .file bytes, _ => .file bytes
  | [], .directory, .directory children => .directory children
  | [], .directory, .file _ => .directory []
  | name :: rest, e, .directory children =>
    let child := (children.lookup name).getD (.directory [])
    .directory (withChild children name (put rest e child))
  | _ :: _, _, .file bytes => .file bytes

/-- Takes the node at a place away. The topmost node stays. -/
def erase : Place → Node → Node
  | [], n => n
  | [name], .directory children => .directory (children.filter (·.1 ≠ name))
  | name :: rest, .directory children =>
    match children.lookup name with
    | some n => .directory (withChild children name (erase rest n))
    | none => .directory children
  | _ :: _, .file bytes => .file bytes

/-- The nodes that names lead to one after the other, latest first, with their names. -/
def trail? (n : Node) : Place → Option (List (String × Node))
  | [] => some []
  | name :: rest =>
    match n with
    | .directory children => do
      let child ← children.lookup name
      return (← trail? child rest) ++ [(name, child)]
    | .file _ => none

mutual

/-- The entries at a node and below it, a directory before what it holds. -/
def entries : Node → List (Place × Entry)
  | .file bytes => [([], .file bytes)]
  | .directory children => ([], .directory) :: entriesOf children

def entriesOf : List (String × Node) → List (Place × Entry)
  | [] => []
  | (name, n) :: rest => (entries n).map (fun (p, e) ↦ (name :: p, e)) ++ entriesOf rest

end

mutual

def files : Node → List (Place × ByteArray)
  | .file bytes => [([], bytes)]
  | .directory children => filesOf children

def filesOf : List (String × Node) → List (Place × ByteArray)
  | [] => []
  | (name, n) :: rest => (files n).map (fun (p, b) ↦ (name :: p, b)) ++ filesOf rest

end

end Node

end Flowgraph.Files
