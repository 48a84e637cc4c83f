/-!
# Trace events

A trace is a sequence of events: the begin and the end of spans of work, single points and
heartbeats. Each event has a scope, and a level says how fine the scopes may be that a tracer
takes. Kinds, scopes, levels, modes and formats are small codes with a table of names.

## Codes

A code is a number with a table of names. A number that is in no table still has a text, so that a
trace can be written whatever its events hold.
-/

namespace Flowgraph.Trace

/-- The name of a code in a table; an empty name stands for none. -/
def nameIn (names : List String) (code : Nat) : String :=
  match names[code]? with
  | some "" | none => "unknown"
  | some name => name

/-- What an event marks. -/
structure Kind where
  code : UInt8
deriving DecidableEq

namespace Kind

def spanBegin : Kind := ⟨1⟩
def spanEnd : Kind := ⟨2⟩
def point : Kind := ⟨3⟩
def heartbeat : Kind := ⟨4⟩

def names : List String := ["", "begin", "end", "point", "heartbeat"]

def text (k : Kind) : String := nameIn names k.code.toNat

end Kind

/-- The granularity of an event; a coarser scope has a smaller code. -/
structure Scope where
  code : UInt8
deriving DecidableEq

namespace Scope

/-- One input file. -/
def driver : Scope := ⟨1⟩

/-- One stage of the pipeline. -/
def pass : Scope := ⟨2⟩

/-- Work on one graph inside a stage. -/
def graph : Scope := ⟨3⟩

/-- One block visited by an analysis. -/
def block : Scope := ⟨4⟩

def names : List String := ["", "driver", "pass", "graph", "block"]

def text (s : Scope) : String := nameIn names s.code.toNat

end Scope

/-- Which scopes a tracer takes. -/
structure Level where
  code : UInt8
deriving DecidableEq

namespace Level

def off : Level := ⟨0⟩

/-- Takes no scope; what was kept is shown on failure. -/
def error : Level := ⟨1⟩

def phase : Level := ⟨2⟩
def detail : Level := ⟨3⟩
def debug : Level := ⟨4⟩

def names : List String := ["off", "error", "phase", "detail", "debug"]

def text (l : Level) : String := nameIn names l.code.toNat

/-- The finest scope that a level takes; a level without a meaning takes none. -/
def depth (l : Level) : UInt8 :=
  match l.code.toNat with
  | 2 => Scope.pass.code
  | 3 => Scope.graph.code
  | 4 => Scope.block.code
  | _ => 0

def takes (l : Level) (s : Scope) : Bool := 0 < s.code && s.code ≤ l.depth

/-- Can anything be recorded at the level? -/
def enabled (l : Level) : Bool := 0 < l.code

end Level

/-- One trace record. -/
structure Event where
  /-- Nanoseconds since the start of 1970, in universal time. -/
  time : Int
  seq : Nat
  kind : Kind
  scope : Scope
  span : Nat
  parent : Nat
  /-- The outermost open span that the event belongs to. -/
  lane : Nat
  name : String
  detail : String
  /-- Further entries; of two with one key the later one counts. -/
  extra : List (String × String)
deriving DecidableEq

/-- Does a tracer of level `l` take the event? Heartbeats pass at every level. -/
def Level.admits (l : Level) (e : Event) : Bool :=
  e.kind = .heartbeat || l.takes e.scope

end Flowgraph.Trace
