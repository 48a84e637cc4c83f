import Flowgraph.GraphFile.Binary
import Flowgraph.Pipeline.Run

/-!
# Stored results

The result of a run is stored as one MessagePack record that holds the graph in its binary form. A
record is read back leniently, and only a record of the current schema whose block numbers are in
range gives a result again.

## Trust

A stored record was written by this program, but perhaps by another version of it, and files can be
damaged. A record that has another schema counts as missing. One of the right schema is checked once
more: the graph by the reader of binary files, the block numbers of the order and of the loops
against the number of blocks.
-/

namespace Flowgraph.Cache

open MessagePack (Slots Value)

/-- A loop as it is stored. -/
structure LoopRecord where
  header : Nat
  members : Option (List Nat)
  parent : Int
  depth : Int
deriving DecidableEq

/-- A result as it is stored. A list that is not there differs from an empty one. -/
structure Payload where
  schema : UInt16
  /-- The binary form of the graph. -/
  graph : Option ByteArray
  order : Option (List Nat)
  loops : Option (Slots LoopRecord)
  stats : Pipeline.Stats
deriving DecidableEq

/-- The schema of the records that are written and accepted. -/
def currentSchema : UInt16 := 1

/-- Why a record gives no result. -/
inductive RestoreError where
  | graph (e : Binary.Error)
  /-- The number of blocks does not fit. -/
  | blockCount
  | blockOutOfRange (block : Nat)
  | headerOutOfRange (block : Nat)
deriving DecidableEq

def RestoreError.message : RestoreError → String
  | .graph e => e.message
  | .blockCount => "out of range"
  | .blockOutOfRange b => s!"block {b} out of range"
  | .headerOutOfRange b => s!"loop header {b} out of range"

namespace Payload

/-- The record with every field zero. -/
def zero : Payload := ⟨0, none, none, none, .zero⟩

def isCurrent (p : Payload) : Bool := p.schema = currentSchema

/-! ## Results -/

def ofResult (r : Pipeline.Result) : Payload where
  schema := currentSchema
  graph := some (Binary.encode r.graph)
  order := r.order
  loops := if r.loops.isEmpty then none
    else some (.ofList (r.loops.map fun l ↦ ⟨l.header, l.members, l.parent, l.depth⟩))
  stats := r.stats

/-- Block numbers, each of them below `count`, if there are any. -/
def checkBlocks (count : Nat) (l : Option (List Nat)) : Except RestoreError (Option (List Nat)) :=
  match l.bind (·.find? (count ≤ ·)) with
  | some b => .error (.blockOutOfRange b)
  | none => .ok l

def restoreLoop (count : Nat) (l : LoopRecord) : Except RestoreError Pipeline.LoopSummary := do
  let members ← checkBlocks count l.members
  if count ≤ l.header then throw (.headerOutOfRange l.header)
  return ⟨l.header, members, l.parent, l.depth⟩

/-- The number of blocks of the input, if it can be one. -/
def blockCount (p : Payload) : Except RestoreError Nat :=
  if 0 ≤ p.stats.blocks ∧ p.stats.blocks < 0x100000000 then .ok p.stats.blocks.toNat
  else .error .blockCount

/-- The result of a record. No stage ran for it. -/
def result (p : Payload) : Except RestoreError Pipeline.Result := do
  let graph ← (Binary.decode (p.graph.getD .empty)).mapError .graph
  let count ← p.blockCount
  let order ← checkBlocks count p.order
  let loops ← (p.loops.getD .empty).items.mapM (restoreLoop count)
  return ⟨graph, order, loops, p.stats, []⟩

/-! ## Records as values -/

/-- A list of block numbers, if there is one. -/
def blocksValue : Option (List Nat) → Value
  | none => .nil
  | some l => .array (l.map fun b ↦ .word32 b.toUInt32)

/-- Reads a list of block numbers. -/
def blocks? (v : Value) : Option (Option (List Nat)) := do
  match ← v.toList? with
  | none => return none
  | some items => return some (← items.mapM (·.toBits? 32))

def loopValue (l : LoopRecord) : Value :=
  .record [("header", .word32 l.header.toUInt32), ("members", blocksValue l.members),
    ("parent", .int l.parent), ("depth", .int l.depth)]

def statsValue (s : Pipeline.Stats) : Value :=
  .record ((Pipeline.Stats.counters.map fun c ↦ (c.name, .int (c.get s)))
    ++ [("leaf", .bool s.leaf)])

def value (p : Payload) : Value :=
  .record [("schema", .word16 p.schema),
    ("graph", match p.graph with
      | none => .nil
      | some b => .bin b),
    ("order", blocksValue p.order),
    ("loops", match p.loops with
      | none => .nil
      | some l => .array (l.items.map loopValue)),
    ("stats", statsValue p.stats)]

/-- The loop record with every field zero. -/
def noLoop : LoopRecord := ⟨0, none, 0, 0⟩

def loopOfValue? : Value → LoopRecord → Option LoopRecord :=
  Value.toRecord? noLoop
    [("header", fun v l ↦ do return { l with header := ← v.toBits? 32 }),
     ("members", fun v l ↦ do return { l with members := ← blocks? v }),
     ("parent", fun v l ↦ do return { l with parent := ← v.toInt64? }),
     ("depth", fun v l ↦ do return { l with depth := ← v.toInt64? })]

/-- Reads the counters. -/
def statsOfValue? : Value → Pipeline.Stats → Option Pipeline.Stats :=
  Value.toRecord? .zero
    ((Pipeline.Stats.counters.map fun c ↦ (c.name, fun v s ↦ do return c.set s (← v.toInt64?)))
      ++ [("leaf", fun v s ↦ do return { s with leaf := ← v.toBool? })])

/-- Reads a record. -/
def ofValue? (v : Value) : Option Payload :=
  Value.toRecord? zero
    [("schema", fun v p ↦ do return { p with schema := (← v.toBits? 16).toUInt16 }),
     ("graph", fun v p ↦ do return { p with graph := ← v.toBytes? }),
     ("order", fun v p ↦ do return { p with order := ← blocks? v }),
     ("loops", fun v p ↦ do
       return { p with loops := ← Slots.ofValue? noLoop loopOfValue? v (p.loops.getD .empty) }),
     ("stats", fun v p ↦ do return { p with stats := ← statsOfValue? v p.stats })]
    v zero

def encode (p : Payload) : ByteArray := MessagePack.toBytes p.value

/-- Reads a record from bytes; what follows it is ignored. -/
def decode? (bytes : ByteArray) : Option Payload := (MessagePack.ofBytes? bytes).bind ofValue?

end Payload

end Flowgraph.Cache
