import Flowgraph.Trace.Encode

/-!
# Where events go

A *stream* writes every event that its level admits as soon as it arrives. A *ring* keeps the most
recent ones, for a look at them after a failure. A tracer is a stream, a ring, several of them, or
none at all; the streams and rings themselves are kept in a table, since several tracers may share
them.

## Levels

Callers ask the tracer for its level and need not build an event that nobody takes. Each stream and
each ring compares again, since a tracer of several can have parts of different levels.

## Frames

A document for a viewer is one array, and its events need a separator between them and a bracket at
each end. A stream writes the first bracket when it is opened and the last one when it is closed. A
ring has no text until it is dumped.
-/

namespace Flowgraph.Trace

/-! ## Streams -/

/-- A stream of written events. -/
structure Stream where
  level : Level
  format : Format
  /-- The time that the lines of text count from. -/
  start : Int
  /-- What has been written. -/
  text : String
  written : Nat
  closed : Bool
  /-- Does the output refuse to be flushed? -/
  flushFails : Bool

namespace Stream

/-- A new stream; a document begins with its frame. -/
def opened (level : Level) (format : Format) (flushFails : Bool) : Stream :=
  ⟨level, format, 0, format.frame.front, 0, false, flushFails⟩

/-- Writes an event, if the level admits it and the stream is not closed. -/
def emit (s : Stream) (e : Event) : Stream :=
  if !s.level.admits e || s.closed then s
  else
    let gap := if s.written = 0 then "" else s.format.frame.separator
    { s with text := s.text ++ gap ++ e.encode s.format s.start, written := s.written + 1 }

/-- Closes the stream; a document ends with its frame. -/
def close (s : Stream) : Stream :=
  if s.closed then s else { s with text := s.text ++ s.format.frame.back, closed := true }

end Stream

/-! ## Rings -/

/-- The most recent events: a buffer that is overwritten in turn once it is full. -/
structure Ring where
  level : Level
  capacity : Nat
  slots : Array Event
  total : Nat

namespace Ring

/-- The capacity of a ring that does not ask for one. -/
def defaultCapacity : Nat := 4096

def empty (capacity : Int) (level : Level) : Ring :=
  ⟨level, if capacity ≤ 0 then defaultCapacity else capacity.toNat, #[], 0⟩

/-- Keeps an event, if the level admits it. -/
def emit (r : Ring) (e : Event) : Ring :=
  if !r.level.admits e then r
  else
    let slots := if r.slots.size < r.capacity then r.slots.push e
      else r.slots.setIfInBounds (r.total % r.capacity) e
    { r with slots, total := r.total + 1 }

/-- The kept events, oldest first. -/
def snapshot (r : Ring) : List Event :=
  let first := if r.slots.size < r.capacity then 0 else r.total % r.capacity
  r.slots.toList.drop first ++ r.slots.toList.take first

/-- The document of the kept events. -/
def dump (r : Ring) (f : Format) (start : Int) : String :=
  f.frame.front ++ f.frame.separator.intercalate (r.snapshot.map (·.encode f start))
    ++ f.frame.back

end Ring

/-! ## Tracers -/

/-- A stream or a ring by its place in the table. -/
inductive Leaf where
  | stream (slot : Nat)
  | ring (slot : Nat)
deriving DecidableEq

/-- What receives events. -/
inductive Tracer where
  /-- Receives nothing. -/
  | none
  | single (level : Level) (leaf : Leaf)
  /-- Hands events on to several; each of them applies its own level. -/
  | multi (level : Level) (leaves : List Leaf)
deriving DecidableEq

namespace Tracer

/-- The level that callers see. -/
def level : Tracer → Level
  | .none => .off
  | .single l _ | .multi l _ => l

/-- The streams and rings behind a tracer. -/
def leaves : Tracer → List Leaf
  | .none => []
  | .single _ leaf => [leaf]
  | .multi _ ls => ls

def kindText : Tracer → String
  | .none => "nop"
  | .single _ (.stream _) => "stream"
  | .single _ (.ring _) => "ring"
  | .multi .. => "multi"

/-- The first ring behind a tracer. -/
def ring? (t : Tracer) : Option Nat :=
  t.leaves.findSome? fun
    | .ring i => some i
    | .stream _ => Option.none

end Tracer

/-- The table of streams and rings. -/
structure Sinks where
  streams : Array Stream
  rings : Array Ring

/-- Why a tracer cannot be used. -/
inductive SinkError where
  | unknownMode (m : Mode)
  | flushFailed
deriving DecidableEq

def SinkError.message : SinkError → String
  | .unknownMode m => s!"unknown trace mode {m.text}"
  | .flushFailed => "flush failed"

namespace Sinks

def empty : Sinks := ⟨#[], #[]⟩

def addStream (s : Sinks) (stream : Stream) : Sinks × Leaf :=
  ({ s with streams := s.streams.push stream }, .stream s.streams.size)

def addRing (s : Sinks) (ring : Ring) : Sinks × Leaf :=
  ({ s with rings := s.rings.push ring }, .ring s.rings.size)

/-- Hands an event to one stream or ring. -/
def emitTo (s : Sinks) (e : Event) : Leaf → Sinks
  | .stream i => { s with streams := s.streams.modify i (·.emit e) }
  | .ring i => { s with rings := s.rings.modify i (·.emit e) }

def emit (s : Sinks) (t : Tracer) (e : Event) : Sinks :=
  t.leaves.foldl (fun s leaf ↦ s.emitTo e leaf) s

/-- Hands events to a tracer in order. -/
def deliver (s : Sinks) (t : Tracer) (events : List Event) : Sinks :=
  events.foldl (fun s e ↦ s.emit t e) s

/-- Does a stream behind the tracer refuse to be flushed? -/
def flush (s : Sinks) (t : Tracer) : Except SinkError Unit :=
  if t.leaves.any fun
    | .stream i => (s.streams[i]?.map Stream.flushFails).getD false
    | .ring _ => false
  then .error .flushFailed else .ok ()

/-- Closes the streams behind a tracer. -/
def close (s : Sinks) (t : Tracer) : Sinks :=
  t.leaves.foldl
    (fun s leaf ↦ match leaf with
      | .stream i => { s with streams := s.streams.modify i Stream.close }
      | .ring _ => s)
    s

def ringOf? (s : Sinks) (t : Tracer) : Option Ring := t.ring?.bind (s.rings[·]?)

end Sinks

/-- What a tracer should be. -/
structure Plan where
  level : Level
  mode : Mode
  format : Format
  /-- The name of the output; empty or a dash for the standard one. -/
  path : String
  capacity : Int
  flushFails : Bool

namespace Plan

/-- The format of the written events; an open one follows from the name of the output. -/
def chosenFormat (p : Plan) : Format :=
  if p.format ≠ .auto then p.format
  else if p.path = "" ∨ p.path = "-" then .text
  else .ofPath p.path

def build (p : Plan) (s : Sinks) : Except SinkError (Sinks × Tracer) :=
  let stream := Stream.opened p.level p.chosenFormat p.flushFails
  let ring := Ring.empty p.capacity p.level
  if p.level = .off then .ok (s, .none)
  else if p.mode = .stream then
    let (s, leaf) := s.addStream stream
    .ok (s, .single p.level leaf)
  else if p.mode = .ring then
    let (s, leaf) := s.addRing ring
    .ok (s, .single p.level leaf)
  else if p.mode = .both then
    let (s, first) := s.addStream stream
    let (s, second) := s.addRing ring
    .ok (s, .multi p.level [first, second])
  else .error (.unknownMode p.mode)

end Plan

end Flowgraph.Trace
