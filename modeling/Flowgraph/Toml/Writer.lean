import Flowgraph.Toml.Record

/-!
# Writing TOML

A document is written section by section. Each section but a leading one without a header starts
with its header, after a blank line if anything was written before. Headers and assignments are
indented by two spaces for each level below the root.
-/

namespace Flowgraph.Toml

/-- A value to be written. -/
inductive Datum where
  | text (bytes : ByteArray)
  | int (n : Int)
  | bool (b : Bool)
  | texts (items : List ByteArray)

/-- One header with the assignments below it. -/
structure Section where
  /-- The keys on the way to the table; none for the root. -/
  path : List String
  /-- Is the section one table of an array of tables? -/
  repeated : Bool
  entries : List (String × Datum)

def Datum.bytes : Datum → ByteArray
  | .text b => quotedBytes b
  | .int n => (toString n).toUTF8
  | .bool b => (if b then "true" else "false").toUTF8
  | .texts items =>
    let joined := (items.map quotedBytes).foldl
      (fun (out, first) b ↦ (out ++ (if first then "" else ", ").toUTF8 ++ b, false))
      (.empty, true)
    "[".toUTF8 ++ joined.1 ++ "]".toUTF8

namespace Section

/-- The indentation of a table at a given depth below the root. -/
def indent (depth : Nat) : String := String.ofList (List.replicate (2 * (depth - 1)) ' ')

/-- The line of a header; the root has none. -/
def header (s : Section) : String :=
  let path := ".".intercalate s.path
  if s.path.isEmpty then ""
  else indent s.path.length ++ (if s.repeated then s!"[[{path}]]" else s!"[{path}]") ++ "\n"

def line (s : Section) (e : String × Datum) : ByteArray :=
  (indent (s.path.length + 1) ++ e.1 ++ " = ").toUTF8 ++ e.2.bytes ++ "\n".toUTF8

/-- Appends a section to what was written before. -/
def write (out : ByteArray) (s : Section) : ByteArray :=
  let gap := if out.isEmpty || s.path.isEmpty then "" else "\n"
  s.entries.foldl (fun out e ↦ out ++ s.line e) (out ++ (gap ++ s.header).toUTF8)

end Section

def write (sections : List Section) : ByteArray := sections.foldl Section.write .empty

end Flowgraph.Toml
