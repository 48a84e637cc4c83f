import Flowgraph.Text.Printable
import Flowgraph.Text.Utf8

/-!
# Quoted text

Texts inside messages are written between double quotes. Printable characters stand for
themselves; quotes, backslashes, controls, unprintable characters and bytes that are no text are
escaped.
-/

namespace Flowgraph.Text

/-- A number in lower-case hexadecimal with at least `width` digits. -/
def hexDigits (width n : Nat) : String :=
  let digits := Nat.toDigits 16 n
  String.ofList (List.replicate (width - digits.length) '0' ++ digits)

/-- A byte string in lower-case hexadecimal, two digits a byte. -/
def hexBytes (bytes : ByteArray) : String :=
  String.join (bytes.toList.map fun b ↦ hexDigits 2 b.toNat)

def quotedChar (c : Char) : String :=
  if c = '"' then "\\\""
  else if c = '\\' then "\\\\"
  else if isPrintable c then c.toString
  else
    match c.toNat with
    | 7 => "\\a"
    | 8 => "\\b"
    | 12 => "\\f"
    | 10 => "\\n"
    | 13 => "\\r"
    | 9 => "\\t"
    | 11 => "\\v"
    | n =>
      if n < 0x20 ∨ n = 0x7F then "\\x" ++ hexDigits 2 n
      else if n < 0x10000 then "\\u" ++ hexDigits 4 n
      else "\\U" ++ hexDigits 8 n

def quotedPiece : Piece → String
  | .char c => quotedChar c
  | .byte b => "\\x" ++ hexDigits 2 b.toNat

def quoted (s : String) : String :=
  "\"" ++ String.join (s.toList.map quotedChar) ++ "\""

def quotedBytes (bytes : ByteArray) : String :=
  "\"" ++ String.join ((pieces bytes).map quotedPiece) ++ "\""

end Flowgraph.Text
