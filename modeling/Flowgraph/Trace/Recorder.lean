import Flowgraph.Trace.Event

/-!
# Recording spans

A recorder numbers events and spans and knows the spans that are open. A span belongs to the lane
of its parent if that one is open, and starts a lane of its own otherwise.

## Left-out spans

A span that the level does not take has number 0. Ending it and giving it entries do nothing, and a
span under it has no parent, so that callers need not know the level.

## Ending

A span is closed by its number, whatever has been opened after it. Nothing forces the ends to come
in the order of a stack, and a span that nobody ends stays open.
-/

namespace Flowgraph.Trace

/-- An interval of work. A span that the level leaves out has number 0. -/
structure Span where
  id : Nat
  parent : Nat
  lane : Nat
  scope : Scope
  name : String
  extra : List (String × String)
deriving DecidableEq

def Span.discarded : Span := ⟨0, 0, 0, ⟨0⟩, "", []⟩

/-- The span with a further entry for its end; an entry of the same key is replaced. -/
def Span.withExtra (s : Span) (key value : String) : Span :=
  if s.id = 0 then s else { s with extra := s.extra.filter (·.1 ≠ key) ++ [(key, value)] }

/-- The counters and the open spans of a trace, and what has been emitted. -/
structure Recorder where
  lastSeq : Nat
  lastSpan : Nat
  /-- The open spans, latest first. -/
  openSpans : List Span
  /-- The emitted events, latest first. -/
  emitted : List Event
deriving DecidableEq

/-- What heartbeat number `beat` says about the open spans. -/
def beatDetail (beat : Int) (openNames : List String) : String :=
  if openNames.isEmpty then s!"#{beat} idle"
  else s!"#{beat} open: " ++ ", ".intercalate openNames

namespace Recorder

/-- Nothing is recorded yet. -/
def start : Recorder := ⟨0, 0, [], []⟩

/-- The emitted events, oldest first. -/
def events (r : Recorder) : List Event := r.emitted.reverse

/-- The recorder without the events it emitted so far. -/
def drain (r : Recorder) : Recorder := { r with emitted := [] }

/-- Emits an event under the next sequence number. -/
def emit (r : Recorder) (e : Event) : Recorder :=
  { r with lastSeq := r.lastSeq + 1, emitted := { e with seq := r.lastSeq + 1 } :: r.emitted }

/-- The lane of a parent: an open span shares its own, any other one starts a lane. -/
def laneOf (r : Recorder) (parent : Nat) : Nat :=
  match r.openSpans.find? (·.id = parent) with
  | some s => s.lane
  | none => parent

/-- The event that marks the begin or end of a span. -/
def spanEvent (s : Span) (kind : Kind) (detail : String) (extra : List (String × String)) : Event :=
  ⟨0, 0, kind, s.scope, s.id, s.parent, s.lane, s.name, detail, extra⟩

/-- Opens a span under a parent, 0 for none, if the level takes its scope. -/
def begin (r : Recorder) (level : Level) (scope : Scope) (name : String) (parent : Nat) :
    Recorder × Span :=
  if level.enabled && level.takes scope then
    let id := r.lastSpan + 1
    let lane := if parent = 0 then id else r.laneOf parent
    let s : Span := ⟨id, parent, lane, scope, name, []⟩
    let r := { r with lastSpan := id, openSpans := s :: r.openSpans }
    (r.emit (spanEvent s .spanBegin "" []), s)
  else (r, .discarded)

def finish (r : Recorder) (s : Span) (detail : String) : Recorder :=
  if s.id = 0 then r
  else
    let r := { r with openSpans := r.openSpans.filter (·.id ≠ s.id) }
    r.emit (spanEvent s .spanEnd detail s.extra)

/-- Emits a point under a parent, if the level takes its scope. -/
def point (r : Recorder) (level : Level) (scope : Scope) (name : String) (parent : Nat)
    (detail : String) : Recorder :=
  if level.enabled && level.takes scope then
    r.emit ⟨0, 0, .point, scope, 0, parent, r.laneOf parent, name, detail, []⟩
  else r

/-- The names of the open spans, oldest first. -/
def openNames (r : Recorder) : List String := (r.openSpans.map Span.name).reverse

/-- The first beat of a heartbeat that names the open spans. There is none if the level records
nothing or the interval is not positive. -/
def beat? (r : Recorder) (level : Level) (interval : Int) : Option Recorder :=
  if level.enabled && 0 < interval then
    some (r.emit ⟨0, 0, .heartbeat, .driver, 0, 0, 0, "heartbeat", beatDetail 1 r.openNames, []⟩)
  else none

end Recorder

end Flowgraph.Trace
