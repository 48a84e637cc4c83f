import Flowgraph.Text.Case
import Flowgraph.Text.Quoted
import Flowgraph.Trace.Event

/-!
# Names of levels, modes and formats

Levels, modes and formats can be given by name, without regard to case.
-/

namespace Flowgraph.Trace

/-- A name that a table does not have. -/
structure UnknownName where
  what : String
  name : String
  names : List String
deriving DecidableEq

def UnknownName.message (e : UnknownName) : String :=
  s!"invalid trace {e.what} {Text.quoted e.name} (expected " ++ "|".intercalate e.names ++ ")"

/-- The code of a name in a table; an empty name stands for none. -/
def codeIn (what : String) (names : List String) (s : String) : Except UnknownName UInt8 :=
  match names.findIdx? fun name ↦ !name.isEmpty && Text.isKeyword name s with
  | some i => .ok i.toUInt8
  | none => .error ⟨what, s, names⟩

def Level.parse (s : String) : Except UnknownName Level := do
  return ⟨← codeIn "level" Level.names s⟩

/-- Where events go. -/
structure Mode where
  code : UInt8
deriving DecidableEq

namespace Mode

def stream : Mode := ⟨1⟩
def ring : Mode := ⟨2⟩
def both : Mode := ⟨3⟩

def names : List String := ["", "stream", "ring", "both"]

def text (m : Mode) : String := nameIn names m.code.toNat

def parse (s : String) : Except UnknownName Mode := do
  return ⟨← codeIn "mode" names s⟩

end Mode

/-- How events are written. -/
structure Format where
  code : UInt8
deriving DecidableEq

namespace Format

/-- The format follows from the name of the output. -/
def auto : Format := ⟨0⟩

def text : Format := ⟨1⟩
def ndjson : Format := ⟨2⟩

/-- One document for a trace viewer, with a thread for each lane. -/
def chrome : Format := ⟨3⟩

def names : List String := ["auto", "text", "ndjson", "chrome"]

def name (f : Format) : String := nameIn names f.code.toNat

/-- The format with a given name; an empty name leaves it open. -/
def parse (s : String) : Except UnknownName Format :=
  if s.isEmpty then .ok .auto else do return ⟨← codeIn "format" names s⟩

/-- The format for an output file. -/
def ofPath (path : String) : Format :=
  if path.endsWith ".ndjson" then .ndjson
  else if path.endsWith ".json" then .chrome
  else .text

end Format

end Flowgraph.Trace
