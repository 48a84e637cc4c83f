import Flowgraph.Graph.Basic
import Flowgraph.Text.Normal
import Flowgraph.Text.Quoted
import Flowgraph.Toml.Writer

/-!
# Textual graph files

The textual form of a graph is a TOML document, meant to be written by hand. Blocks and values are
referred to by name and may be used before they are defined. A block without a label is named after
its position, and a value without a name after the number of its operation. Names are compared in
normal form, without white space at their ends.

## Two passes

The entries are read first, without a look at what the names mean. Then labels and values are
collected, duplicates and unknown kinds are reported, and only if there are none the operations are
resolved one by one. All faults of a pass are reported together, but a terminator in a wrong place
ends the second one at once.

## Writing

The writer names blocks and values after their handles, so that no name comes twice, and terminators
not at all. Hints and flags that have their usual value are left out.
-/

namespace Flowgraph.Textual

/-- An operation as it is written. -/
structure OpEntry where
  value : String
  name : String
  args : List String
  target : String
  ifTrue : String
  ifFalse : String
  hint : String
  rep : String
  callee : String
  required : Bool

/-- A block as it is written. -/
structure BlockEntry where
  label : String
  kind : String
  deferred : Bool
  ops : List OpEntry

/-- A graph as it is written. -/
structure GraphEntry where
  name : String
  blocks : List BlockEntry

/-- What is wrong with one operation. -/
inductive OpFault where
  | missingName
  | unknownBlock (name : String)
  | unknownValue (name : String)
  | conditionCount (count : Nat)
  | unknownHint (name : String)
  | unknownRepresentation (name : String)
  | missingCallee
  | misplaced (name : String)
deriving DecidableEq

/-- What is wrong with a graph. -/
inductive Fault where
  | duplicateLabel (block : Nat) (label : String)
  | duplicateValue (label : String) (position : Nat) (value : String)
  | unknownKind (block : Nat) (kind : String)
  | noOperations (block : Nat)
  | op (block position : Nat) (f : OpFault)
deriving DecidableEq

/-- Why a textual graph cannot be read. -/
inductive Error where
  /-- The bytes are no document of the expected shape. -/
  | notADocument
  | unknownKeys (keys : List Toml.Key)
  | noBlocks
  | faults (l : List Fault)
  /-- The graph is larger than handles reach. -/
  | breach (b : Breach)
deriving DecidableEq

/-- The wording of what is wrong with an operation. -/
def OpFault.message : OpFault → String
  | .missingName => "missing op"
  | .unknownBlock n => s!"unknown block {Text.quoted n}"
  | .unknownValue n => s!"unknown value {Text.quoted n}"
  | .conditionCount n => s!"branch takes one condition, got {n}"
  | .unknownHint n => s!"unknown hint {Text.quoted n}"
  | .unknownRepresentation n => s!"unknown representation {Text.quoted n}"
  | .missingCallee => "call without callee"
  | .misplaced n => s!"{Text.quoted n} must be the last operation of a block and only there"

/-- The wording of what is wrong with a graph. -/
def Fault.message : Fault → String
  | .duplicateLabel b l => s!"block {b}: duplicate label {Text.quoted l}"
  | .duplicateValue l i v => s!"block {Text.quoted l} op {i}: duplicate value {Text.quoted v}"
  | .unknownKind b k => s!"block {b}: unknown kind {Text.quoted k}"
  | .noOperations b => s!"block {b}: no operations"
  | .op b i f => s!"block {b} op {i}: {f.message}"

def Error.message : Error → String
  | .notADocument => "failed to parse TOML"
  | .unknownKeys keys => "unknown keys: " ++ ", ".intercalate (keys.map Toml.keyText)
  | .noBlocks => "graph has no blocks"
  | .faults l => "\n".intercalate (l.map Fault.message)
  | .breach b => b.message?.getD ""

/-! ## Reading the entries -/

open Toml (FieldReader Reading)

/-- The operation with every field empty. -/
def OpEntry.zero : OpEntry := ⟨"", "", [], "", "", "", "", "", "", false⟩

/-- The block with every field empty. -/
def BlockEntry.zero : BlockEntry := ⟨"", "", false, []⟩

def OpEntry.fields : List (FieldReader OpEntry) :=
  [⟨"def", fun _ n e ↦ do return { e with value := ← Reading.string n }⟩,
   ⟨"op", fun _ n e ↦ do return { e with name := ← Reading.string n }⟩,
   ⟨"args", fun _ n e ↦ do return { e with args := ← Reading.strings n }⟩,
   ⟨"target", fun _ n e ↦ do return { e with target := ← Reading.string n }⟩,
   ⟨"then", fun _ n e ↦ do return { e with ifTrue := ← Reading.string n }⟩,
   ⟨"else", fun _ n e ↦ do return { e with ifFalse := ← Reading.string n }⟩,
   ⟨"hint", fun _ n e ↦ do return { e with hint := ← Reading.string n }⟩,
   ⟨"rep", fun _ n e ↦ do return { e with rep := ← Reading.string n }⟩,
   ⟨"callee", fun _ n e ↦ do return { e with callee := ← Reading.string n }⟩,
   ⟨"required", fun _ n e ↦ do return { e with required := ← Reading.boolean n }⟩]

def BlockEntry.fields : List (FieldReader BlockEntry) :=
  [⟨"label", fun _ n e ↦ do return { e with label := ← Reading.string n }⟩,
   ⟨"kind", fun _ n e ↦ do return { e with kind := ← Reading.string n }⟩,
   ⟨"deferred", fun _ n e ↦ do return { e with deferred := ← Reading.boolean n }⟩,
   ⟨"op", fun path n e ↦ do
     return { e with ops := ← Reading.records OpEntry.fields .zero path n }⟩]

def GraphEntry.fields : List (FieldReader GraphEntry) :=
  [⟨"name", fun _ n e ↦ do return { e with name := ← Reading.string n }⟩,
   ⟨"block", fun path n e ↦ do
     return { e with blocks := ← Reading.records BlockEntry.fields .zero path n }⟩]

def GraphEntry.ofBytes (bytes : ByteArray) : Except Error GraphEntry :=
  match Toml.Document.ofBytes? bytes with
  | none => .error .notADocument
  | some d =>
    match (Reading.record GraphEntry.fields [] d.root ⟨"", []⟩).run [] with
    | none => .error .notADocument
    | some (entry, used) =>
      match d.unused used with
      | [] => .ok entry
      | keys => .error (.unknownKeys keys)

/-! ## Resolving names -/

def normalName (s : String) : String := Text.normal (Text.trim s)

def nameOr (s : String) (letter : String) (position : Nat) : String :=
  let name := normalName s
  if name.isEmpty then letter ++ toString position else name

def GraphEntry.labels (e : GraphEntry) : List String :=
  e.blocks.zipIdx.map fun (b, i) ↦ nameOr b.label "b" i

def GraphEntry.values (e : GraphEntry) : List String :=
  (e.blocks.flatMap (·.ops)).zipIdx.map fun (op, i) ↦ nameOr op.value "v" i

/-- The names that are defined twice, block by block: first the label and then the values. The
values of the blocks before are in `seen`. -/
def duplicates : List (BlockEntry × Nat) → (labels seen : List String) → List Fault
  | [], _, _ => []
  | (b, i) :: rest, labels, seen =>
    let label := nameOr b.label "b" i
    let names := b.ops.zipIdx.map fun (op, k) ↦ nameOr op.value "v" (seen.length + k)
    let again := names.zipIdx.filter fun (v, k) ↦ seen.contains v || (names.take k).contains v
    (if labels.contains label then [.duplicateLabel i label] else [])
      ++ again.map (fun (v, k) ↦ .duplicateValue label k v)
      ++ duplicates rest (label :: labels) (names ++ seen)

def kindOf? (s : String) : Option BlockKind :=
  [("entry", .entry), ("plain", .plain), ("merge", .merge), ("loop", .loop)].lookup (Text.lower s)

/-- The branch hint with a given name. -/
def hintOf? (s : String) : Option Hint :=
  [("", .unhinted), ("none", .unhinted), ("true", .towardTrue), ("false", .towardFalse)].lookup
    (Text.lower s)

def representationOf? (s : String) : Option Representation :=
  [("", .unspecified), ("none", .unspecified), ("word32", .word32), ("word64", .word64),
    ("float64", .float64), ("tagged", .tagged)].lookup (Text.lower s)

/-- The names in scope, each at the position of what it names. -/
structure Scope where
  labels : List String
  values : List String

/-- A step that notes what is wrong and goes on. -/
abbrev Checking := StateM (Array OpFault)

namespace Checking

def note (f : OpFault) : Checking Unit := modify (·.push f)

/-- The result of a look-up, or a fault and a stand-in. -/
def orNote {α : Type} (found : Option α) (standIn : α) (f : OpFault) : Checking α :=
  match found with
  | some a => pure a
  | none => do
    note f
    return standIn

end Checking

open Checking

def Scope.block (s : Scope) (name : String) : Checking BlockIndex :=
  orNote (s.labels.idxOf? (normalName name)) 0 (.unknownBlock name)

def Scope.value (s : Scope) (name : String) : Checking OpIndex :=
  orNote (s.values.idxOf? (normalName name)) 0 (.unknownValue name)

def OpEntry.branch (e : OpEntry) (s : Scope) : List OpIndex → Checking Operation
  | [cond] => do
    let hint ← orNote (hintOf? e.hint) .unhinted (.unknownHint e.hint)
    let t ← s.block e.ifTrue
    let f ← s.block e.ifFalse
    return .branch cond t f hint
  | args => do
    note (.conditionCount args.length)
    return .dead

def OpEntry.operation (e : OpEntry) (s : Scope) : Checking Operation := do
  let name := Text.trim e.name
  if name.isEmpty then
    note .missingName
    return .dead
  let args ← e.args.mapM s.value
  match Text.lower name with
  | "goto" => return .goto (← s.block e.target)
  | "branch" => e.branch s args
  | "phi" => do
    let rep ← orNote (representationOf? e.rep) .unspecified (.unknownRepresentation e.rep)
    return ⟨.phi rep, args⟩
  | "call" => do
    if e.callee.isEmpty then note .missingCallee
    return ⟨.call e.callee.toUTF8, args⟩
  | "return" => return .ret args
  | "dead" => return .dead
  | _ => return ⟨.other name.toUTF8 e.required, args⟩

/-- The operations of a block. A terminator has to come last and nowhere else; the first operation
that breaks this is noted and ends the list. -/
def blockOps (s : Scope) (b : Nat) : List (OpEntry × Nat) → List Operation × List Fault × Bool
  | [] => ([], [], true)
  | (e, i) :: rest =>
    let (op, faults) := (e.operation s).run #[]
    let faults := faults.toList.map (Fault.op b i)
    if op.isTerminator ≠ rest.isEmpty then
      ([], faults ++ [.op b i (.misplaced e.name)], false)
    else
      let (ops, more, complete) := blockOps s b rest
      (op :: ops, faults ++ more, complete)

/-- Adds the operations of all blocks, noting what is wrong, and stops after a block that is not
complete. -/
def fillBlocks (s : Scope) : List (BlockEntry × Nat) → Graph → List Fault → Except Error Graph
  | [], g, [] => .ok g
  | [], _, faults => .error (.faults faults)
  | (e, b) :: rest, g, faults =>
    if e.ops.isEmpty then fillBlocks s rest g (faults ++ [.noOperations b])
    else
      match blockOps s b e.ops.zipIdx with
      | (_, more, false) => .error (.faults (faults ++ more))
      | (ops, more, true) => do
        let g ← (g.bind b >>= (·.addOperations ops)).mapError .breach
        fillBlocks s rest g (faults ++ more)

def GraphEntry.graph (e : GraphEntry) : Except Error Graph := do
  let blocks := e.blocks.zipIdx
  if blocks.isEmpty then throw .noBlocks
  let unknownKinds := blocks.filterMap fun (b, i) ↦
    if (kindOf? b.kind).isNone then some (Fault.unknownKind i b.kind) else none
  match duplicates blocks [] [] ++ unknownKinds with
  | [] =>
    let g ← (e.blocks.foldlM
      (fun g b ↦ Graph.addBlock g ((kindOf? b.kind).getD .entry) b.deferred)
      (Graph.empty (normalName e.name).toUTF8)).mapError .breach
    fillBlocks ⟨e.labels, e.values⟩ blocks g []
  | faults => .error (.faults faults)

/-- Reads the textual form of a graph. -/
def decode (bytes : ByteArray) : Except Error Graph := do (← GraphEntry.ofBytes bytes).graph

/-! ## Writing -/

open Toml (Datum)

/-- An entry that is left out when it is empty. -/
def textEntry (key : String) (b : ByteArray) : List (String × Datum) :=
  if b.isEmpty then [] else [(key, .text b)]

/-- An entry that is left out when it is false. -/
def flagEntry (key : String) (b : Bool) : List (String × Datum) :=
  if b then [(key, .bool true)] else []

def opEntries (i : OpIndex) (op : Operation) : List (String × Datum) :=
  let value := if op.isTerminator then [] else [("def", Datum.text i.text.toUTF8)]
  let name : ByteArray := match op.action with
    | .other m _ => m
    | a => a.kindText.toUTF8
  let args := if op.inputs.isEmpty then []
    else [("args", Datum.texts (op.inputs.map (·.text.toUTF8)))]
  let rest := match op.action with
    | .goto t => textEntry "target" t.text.toUTF8
    | .branch t f hint =>
      textEntry "then" t.text.toUTF8 ++ textEntry "else" f.text.toUTF8
        ++ (if hint = .unhinted then [] else textEntry "hint" hint.text.toUTF8)
    | .phi rep => textEntry "rep" rep.text.toUTF8
    | .call callee => textEntry "callee" callee
    | .other _ required => flagEntry "required" required
    | _ => []
  value ++ [("op", .text name)] ++ args ++ rest

def blockSections (g : Graph) (b : Block × BlockIndex) : List Toml.Section :=
  let head : Toml.Section := ⟨["block"], true,
    [("label", .text b.2.text.toUTF8), ("kind", .text b.1.kind.text.toUTF8)]
      ++ flagEntry "deferred" b.1.deferred⟩
  head :: b.1.span.toList.filterMap fun i ↦
    g.ops[i]?.map fun op ↦ ⟨["block", "op"], true, opEntries i op⟩

/-- The textual form of a graph. Blocks and values are named after their handles. -/
def encode (g : Graph) : ByteArray :=
  Toml.write (⟨[], false, [("name", .text g.name)]⟩
    :: g.blocks.toList.zipIdx.flatMap (blockSections g))

end Flowgraph.Textual
