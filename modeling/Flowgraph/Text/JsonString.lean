import Flowgraph.Text.Quoted

/-!
# JSON text

Objects are written on one line, with their fields in the order given. Characters that could end a
script or a tag are escaped in strings, so that the text can stand inside a web page.
-/

namespace Flowgraph.Text

/-- A character inside a JSON string. -/
def jsonChar (c : Char) : String :=
  match c with
  | '"' => "\\\""
  | '\\' => "\\\\"
  | '\n' => "\\n"
  | '\r' => "\\r"
  | '\t' => "\\t"
  | '\x08' => "\\b"
  | '\x0c' => "\\f"
  | c =>
    if c < ' ' || c = '<' || c = '>' || c = '&' || c = '\u2028' || c = '\u2029' then
      "\\u" ++ hexDigits 4 c.toNat
    else c.toString

def jsonString (s : String) : String := "\"" ++ String.join (s.toList.map jsonChar) ++ "\""

/-- A JSON object of fields that are written already. -/
def jsonObject (fields : List (String × String)) : String :=
  "\x7b" ++ ",".intercalate (fields.map fun (k, v) ↦ jsonString k ++ ":" ++ v) ++ "\x7d"

end Flowgraph.Text
