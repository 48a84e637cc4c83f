import Flowgraph.Text.Color
import Flowgraph.Text.JsonString
import Flowgraph.Text.Padding

/-!
# The version of the program

A version is shown in colour with its three numbers apart, and with what is known about the build.
-/

namespace Flowgraph

/-- What is known about a build. -/
structure BuildInfo where
  version : String
  commit : String
  date : String
  compiler : String

namespace BuildInfo

def program : String := "cfgprep"

def current : BuildInfo := ⟨"0.1.0-dev", "", "", ""⟩

/-- A version with a colour for each of its three numbers; what follows a hyphen or a plus sign
stays plain, and so does a version of another form. -/
def colored (color : Bool) (v : String) : String :=
  let isSuffix (c : Char) : Bool := c = '-' || c = '+'
  let core := String.ofList (v.toList.takeWhile (!isSuffix ·))
  let suffix := String.ofList (v.toList.dropWhile (!isSuffix ·))
  match color, core.splitOn "." with
  | true, [major, minor, patch] =>
    Text.bold 33 major ++ "." ++ Text.bold 32 minor ++ "." ++ Text.bold 34 patch ++ suffix
  | _, _ => v

def text (color : Bool) (b : BuildInfo) : String :=
  let row (name value : String) : String :=
    if value.isEmpty then "" else "  " ++ Text.padRight 7 (name ++ ":") ++ value ++ "\n"
  program ++ " " ++ colored color b.version ++ "\n" ++ row "commit" b.commit ++ row "built" b.date
    ++ row "go" b.compiler

/-- The build as a JSON object on several lines; what is not known is left out. -/
def json (b : BuildInfo) : String :=
  let fields := [("tool", program), ("version", b.version), ("git_commit", b.commit),
    ("build_date", b.date), ("go_version", b.compiler)]
  let lines := (fields.filter fun (_, value) ↦ !value.isEmpty).map fun (key, value) ↦
    s!"  {Text.jsonString key}: {Text.jsonString value}"
  "\x7b\n" ++ ",\n".intercalate lines ++ "\n\x7d\n"

end BuildInfo

end Flowgraph
