import Flowgraph.GraphFile.Binary
import Flowgraph.GraphFile.Textual
import Flowgraph.Text.Case

/-!
# Formats of graph files

A graph file is textual or binary. The suffix of its name tells which.
-/

namespace Flowgraph

/-- The two forms of a graph file. -/
inductive GraphFormat where
  | text
  | binary
deriving DecidableEq

/-- A name that is no format, or a path without a graph suffix. -/
inductive FormatError where
  | unknownName (name : String)
  | unknownSuffix (path : String)
deriving DecidableEq

/-- Why a graph file cannot be read. -/
inductive GraphFileError where
  | textual (e : Textual.Error)
  | binary (e : Binary.Error)
deriving DecidableEq

namespace GraphFormat

def name : GraphFormat → String
  | .text => "text"
  | .binary => "binary"

/-- The suffix of file names. -/
def suffix : GraphFormat → String
  | .text => ".cfg.toml"
  | .binary => ".cfgb"

end GraphFormat

def FormatError.message : FormatError → String
  | .unknownName n => s!"invalid graph format {Text.quoted n} (expected: text|binary)"
  | .unknownSuffix p =>
    s!"{p}: unknown graph file format "
      ++ s!"(want {GraphFormat.text.suffix} or {GraphFormat.binary.suffix})"

def GraphFileError.message : GraphFileError → String
  | .textual e => e.message
  | .binary e => e.message

namespace GraphFormat

/-- The format with a given name, in any case and with blanks around it. -/
def parse (s : String) : Except FormatError GraphFormat :=
  match Text.lower (Text.trim s) with
  | "text" | "toml" => .ok .text
  | "binary" | "msgpack" => .ok .binary
  | _ => .error (.unknownName s)

/-- The format that the suffix of a path tells. -/
def forPath (path : String) : Except FormatError GraphFormat :=
  if path.endsWith GraphFormat.text.suffix then .ok .text
  else if path.endsWith GraphFormat.binary.suffix then .ok .binary
  else .error (.unknownSuffix path)

def decode (f : GraphFormat) (bytes : ByteArray) : Except GraphFileError Graph :=
  match f with
  | .text => (Textual.decode bytes).mapError .textual
  | .binary => (Binary.decode bytes).mapError .binary

def encode (f : GraphFormat) (g : Graph) : ByteArray :=
  match f with
  | .text => Textual.encode g
  | .binary => Binary.encode g

end GraphFormat

/-- The suffix of the last element of a path from its last dot on. -/
def extension (path : String) : String :=
  let last := (path.toList.reverse.takeWhile (· ≠ '/')).reverse
  if last.contains '.' then
    String.ofList (last.reverse.takeWhile (· ≠ '.') ++ ['.']).reverse
  else ""

/-- A path without its graph suffix, or else without its extension. -/
def stripSuffix (path : String) : String :=
  let drop (s : String) : String := String.ofList (path.toList.take (path.length - s.length))
  match GraphFormat.forPath path with
  | .ok f => drop f.suffix
  | .error _ => drop (extension path)

end Flowgraph
