import Flowgraph.Graph.Basic
import Flowgraph.MessagePack.Decode
import Flowgraph.MessagePack.Encode
import Flowgraph.MessagePack.Slots

/-!
# Binary graph files

The binary form of a graph is one MessagePack record. Blocks and operations are stored in order, so
that positions serve as handles; edges are not stored, as they follow from the terminators. Reading
checks every index, so that a damaged file is an error and never a broken graph.

## Reading on top

A record is read into one that has every field zero, field by field, and an unknown field is passed
over. A field that comes twice is read twice. The lists of blocks and of operations then keep what
the first reading left in them, which is what `Slots` is for.

## Checks

The schema is checked before anything else of the record. Indices are compared with the numbers of
blocks and operations of the whole record, so that forward references are allowed and wild ones are
not. Opcodes and kinds without a meaning are errors here, although a graph could hold them.
-/

namespace Flowgraph.Binary

open MessagePack (Slots Value)

/-- An operation as it is stored. The meaning of `targets`, `text` and `attr` depends on the
opcode. -/
structure OpRecord where
  opcode : UInt8
  inputs : List Nat
  targets : List Nat
  text : ByteArray
  attr : UInt8
  required : Bool
deriving DecidableEq

/-- A block as it is stored. -/
structure BlockRecord where
  kind : UInt8
  deferred : Bool
  ops : Slots OpRecord
deriving DecidableEq

/-- A graph as it is stored. -/
structure GraphRecord where
  schema : UInt16
  name : ByteArray
  blocks : Slots BlockRecord
deriving DecidableEq

/-- The version of the record that is written and read. -/
def schemaVersion : UInt16 := 1

/-- What is wrong with one operation of a binary graph. -/
inductive OpError where
  | inputOutOfRange (index : Nat)
  | targetOutOfRange (index : Nat)
  | gotoTargets (count : Nat)
  | malformedBranch
  | invalidRepresentation (code : UInt8)
  | invalidOpcode (code : UInt8)
  | misplaced (kind : String)
deriving DecidableEq

/-- Why a binary graph cannot be read. -/
inductive Error where
  /-- The bytes are not a graph record. -/
  | notARecord
  | schemaMismatch (found : UInt16)
  | noBlocks
  | invalidKind (block : Nat) (code : UInt8)
  | noOperations (block : Nat)
  /-- The operation at a position in a block is wrong. -/
  | op (block position : Nat) (e : OpError)
  /-- The graph is larger than handles reach. -/
  | breach (b : Breach)
deriving DecidableEq

def OpError.message : OpError → String
  | .inputOutOfRange i => s!"input {i} out of range"
  | .targetOutOfRange i => s!"target {i} out of range"
  | .gotoTargets n => s!"goto with {n} targets"
  | .malformedBranch => "malformed branch"
  | .invalidRepresentation c => s!"invalid representation {c.toNat}"
  | .invalidOpcode c => s!"invalid opcode {c.toNat}"
  | .misplaced k => s!"misplaced {k}"

def Error.message : Error → String
  | .notARecord => "failed to decode graph"
  | .schemaMismatch n =>
    s!"graph schema mismatch: file has {n.toNat}, want {schemaVersion.toNat}"
  | .noBlocks => "graph has no blocks"
  | .invalidKind b c => s!"block {b}: invalid kind {c.toNat}"
  | .noOperations b => s!"block {b}: no operations"
  | .op b i e => s!"block {b} op {i}: {e.message}"
  | .breach b => b.message?.getD ""

/-! ## From a graph to its record -/

def OpRecord.ofOperation (op : Operation) : OpRecord :=
  let plain : OpRecord := ⟨op.action.code, op.inputs, [], .empty, 0, false⟩
  match op.action with
  | .other m required => { plain with text := m, required }
  | .goto t => { plain with targets := [t] }
  | .branch t f hint => { plain with targets := [t, f], attr := hint.code }
  | .phi rep => { plain with attr := rep.code }
  | .call callee => { plain with text := callee }
  | _ => plain

def BlockRecord.ofBlock (g : Graph) (b : Block) : BlockRecord where
  kind := b.kind.code
  deferred := b.deferred
  ops := .ofList (b.span.toList.filterMap fun i ↦ g.ops[i]?.map .ofOperation)

def GraphRecord.ofGraph (g : Graph) : GraphRecord where
  schema := schemaVersion
  name := g.name
  blocks := .ofList (g.blocks.toList.map (.ofBlock g))

/-! ## From a record to its graph -/

/-- The operation of a record, in a graph of `blocks` blocks and `ops` operations. -/
def OpRecord.operation (r : OpRecord) (blocks ops : Nat) : Except OpError Operation :=
  match r.inputs.find? (ops ≤ ·), r.targets.find? (blocks ≤ ·) with
  | some i, _ => .error (.inputOutOfRange i)
  | none, some t => .error (.targetOutOfRange t)
  | none, none =>
    match r.opcode.toNat with
    | 0 => .ok ⟨.other r.text r.required, r.inputs⟩
    | 1 =>
      match r.targets with
      | [t] => .ok (.goto t)
      | ts => .error (.gotoTargets ts.length)
    | 2 =>
      match r.targets, r.inputs with
      | [t, f], [cond] =>
        if 2 < r.attr then .error .malformedBranch else .ok (.branch cond t f (.ofCode r.attr))
      | _, _ => .error .malformedBranch
    | 3 =>
      if 4 < r.attr then .error (.invalidRepresentation r.attr)
      else .ok ⟨.phi (.ofCode r.attr), r.inputs⟩
    | 4 => .ok ⟨.call r.text, r.inputs⟩
    | 5 => .ok (.ret r.inputs)
    | 6 => .ok .dead
    | _ => .error (.invalidOpcode r.opcode)

/-- Adds the block of a record, still empty. -/
def addBlock (g : Graph) (r : BlockRecord × Nat) : Except Error Graph :=
  if 3 < r.1.kind then .error (.invalidKind r.2 r.1.kind)
  else (g.addBlock (.ofCode r.1.kind) r.1.deferred).mapError .breach

/-- Adds the operation of a record at position `i` of `count` to block `b`. -/
def addOp (blocks ops b count : Nat) (g : Graph) (r : OpRecord × Nat) : Except Error Graph := do
  let op ← (r.1.operation blocks ops).mapError (.op b r.2)
  if op.isTerminator ≠ decide (r.2 + 1 = count) then
    throw (.op b r.2 (.misplaced op.action.kindText))
  (g.addOperation op).mapError .breach

def fillBlock (blocks ops : Nat) (g : Graph) (r : BlockRecord × Nat) : Except Error Graph := do
  let records := r.1.ops.items
  if records.isEmpty then throw (.noOperations r.2)
  let g ← (g.bind r.2).mapError .breach
  records.zipIdx.foldlM (addOp blocks ops r.2 records.length) g

def GraphRecord.graph (r : GraphRecord) : Except Error Graph := do
  if r.schema ≠ schemaVersion then throw (.schemaMismatch r.schema)
  let records := r.blocks.items
  if records.isEmpty then throw .noBlocks
  let ops := records.foldl (fun sum b ↦ sum + b.ops.items.length) 0
  let g ← records.zipIdx.foldlM addBlock (.empty r.name)
  records.zipIdx.foldlM (fillBlock records.length ops) g

/-! ## Records as values -/

/-- A list of indices, with nothing for an empty one. -/
def indices (l : List Nat) : Value := .listOrNil (l.map fun i ↦ .word32 i.toUInt32)

def indices? (v : Value) : Option (List Nat) := do
  match ← v.toList? with
  | none => return []
  | some items => items.mapM (·.toBits? 32)

def OpRecord.value (r : OpRecord) : Value :=
  .record [("Kind", .word8 r.opcode), ("Inputs", indices r.inputs), ("Targets", indices r.targets),
    ("Text", .str r.text), ("Attr", .word8 r.attr), ("Required", .bool r.required)]

def BlockRecord.value (r : BlockRecord) : Value :=
  .record [("Kind", .word8 r.kind), ("Deferred", .bool r.deferred),
    ("Ops", .listOrNil (r.ops.items.map OpRecord.value))]

def GraphRecord.value (r : GraphRecord) : Value :=
  .record [("Schema", .word16 r.schema), ("Name", .str r.name),
    ("Blocks", .array (r.blocks.items.map BlockRecord.value))]

/-- The record with every field zero. -/
def OpRecord.zero : OpRecord := ⟨0, [], [], .empty, 0, false⟩

/-- The record with every field zero. -/
def BlockRecord.zero : BlockRecord := ⟨0, false, .empty⟩

/-- The record with every field zero. -/
def GraphRecord.zero : GraphRecord := ⟨0, .empty, .empty⟩

/-- Reads an operation record. -/
def OpRecord.ofValue? : Value → OpRecord → Option OpRecord :=
  Value.toRecord? .zero
    [("Kind", fun v r ↦ do return { r with opcode := (← v.toBits? 8).toUInt8 }),
     ("Inputs", fun v r ↦ do return { r with inputs := ← indices? v }),
     ("Targets", fun v r ↦ do return { r with targets := ← indices? v }),
     ("Text", fun v r ↦ do return { r with text := ← v.toText? }),
     ("Attr", fun v r ↦ do return { r with attr := (← v.toBits? 8).toUInt8 }),
     ("Required", fun v r ↦ do return { r with required := ← v.toBool? })]

/-- Reads a list of records on top of an earlier one; nothing counts as an empty list. -/
def slots? {α : Type} (zero : α) (read : Value → α → Option α) (v : Value) (old : Slots α) :
    Option (Slots α) := do
  return (← Slots.ofValue? zero read v old).getD .empty

def BlockRecord.ofValue? : Value → BlockRecord → Option BlockRecord :=
  Value.toRecord? .zero
    [("Kind", fun v r ↦ do return { r with kind := (← v.toBits? 8).toUInt8 }),
     ("Deferred", fun v r ↦ do return { r with deferred := ← v.toBool? }),
     ("Ops", fun v r ↦ do return { r with ops := ← slots? .zero OpRecord.ofValue? v r.ops })]

def GraphRecord.ofValue? (v : Value) : Option GraphRecord :=
  Value.toRecord? .zero
    [("Schema", fun v r ↦ do return { r with schema := (← v.toBits? 16).toUInt16 }),
     ("Name", fun v r ↦ do return { r with name := ← v.toText? }),
     ("Blocks", fun v r ↦ do
       return { r with blocks := ← slots? .zero BlockRecord.ofValue? v r.blocks })]
    v .zero

/-! ## Files -/

def encode (g : Graph) : ByteArray := MessagePack.toBytes (GraphRecord.ofGraph g).value

/-- Reads the binary form of a graph; what follows it is ignored. -/
def decode (bytes : ByteArray) : Except Error Graph :=
  match (MessagePack.ofBytes? bytes).bind GraphRecord.ofValue? with
  | none => .error .notARecord
  | some r => r.graph

end Flowgraph.Binary
