/-!
# Reading bytes as text

A byte string is read as a list of pieces: the characters of its well-formed UTF-8 sequences, and
every other byte on its own. Encoding the pieces gives the bytes back.
-/

namespace Flowgraph.Text

/-- A character, or a byte that is part of none. -/
inductive Piece where
  | char (c : Char)
  | byte (b : UInt8)
deriving DecidableEq

/-- The payload of a continuation byte. -/
def continuation? (b : UInt8) : Option Nat :=
  if 0x80 ≤ b ∧ b < 0xC0 then some (b.toNat - 0x80) else none

/-- A code point that is at least `least` and a character. -/
def charFrom? (least n : Nat) : Option Char :=
  if least ≤ n ∧ n.isValidChar then some (Char.ofNat n) else none

/-- The character at the head of a byte list and the number of bytes that follow its first one. -/
def headChar? : List UInt8 → Option (Char × Nat)
  | [] => none
  | b :: rest =>
    let n := b.toNat
    if n < 0x80 then some (Char.ofNat n, 0)
    else if n < 0xC2 then none
    else if n < 0xE0 then
      match rest with
      | c :: _ => do
        let x ← continuation? c
        return (← charFrom? 0x80 ((n - 0xC0) * 64 + x), 1)
      | _ => none
    else if n < 0xF0 then
      match rest with
      | c :: d :: _ => do
        let x ← continuation? c
        let y ← continuation? d
        return (← charFrom? 0x800 (((n - 0xE0) * 64 + x) * 64 + y), 2)
      | _ => none
    else if n < 0xF8 then
      match rest with
      | c :: d :: e :: _ => do
        let x ← continuation? c
        let y ← continuation? d
        let z ← continuation? e
        return (← charFrom? 0x10000 ((((n - 0xF0) * 64 + x) * 64 + y) * 64 + z), 3)
      | _ => none
    else none

/-- The pieces of a byte list, after `skip` bytes that belong to the piece before. -/
def piecesAfter : Nat → List UInt8 → List Piece
  | _, [] => []
  | skip + 1, _ :: rest => piecesAfter skip rest
  | 0, b :: rest =>
    match headChar? (b :: rest) with
    | some (c, n) => .char c :: piecesAfter n rest
    | none => .byte b :: piecesAfter 0 rest

def pieces (bytes : ByteArray) : List Piece := piecesAfter 0 bytes.toList

/-- The text of a byte string, with the replacement character for every byte outside a
character. -/
def lossyText (bytes : ByteArray) : String :=
  String.ofList <| (pieces bytes).map fun
    | .char c => c
    | .byte _ => '\uFFFD'

end Flowgraph.Text
