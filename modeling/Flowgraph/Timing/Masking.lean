/-!
# Masking measured times

Measured times differ from run to run. Masking replaces them in a text, so that the texts of two
runs can be compared.
-/

namespace Flowgraph.Timing

/-- A part of a pattern. -/
inductive Pattern where
  | literal (s : String)
  /-- At least a number of characters of a class, as many as there are. -/
  | many (least : Nat) (ofClass : Char → Bool)
  /-- Exactly a number of characters of a class. -/
  | times (count : Nat) (ofClass : Char → Bool)
  | optional (c : Char)

namespace Pattern

/-- The text after the part, if the text starts with it. -/
def rest? : Pattern → List Char → Option (List Char)
  | .literal s, cs => if s.toList.isPrefixOf cs then some (cs.drop s.length) else none
  | .many least p, cs => if least ≤ (cs.takeWhile p).length then some (cs.dropWhile p) else none
  | .times n p, cs =>
    if (cs.take n).length = n ∧ (cs.take n).all p then some (cs.drop n) else none
  | .optional c, cs => some (if cs.head? = some c then cs.drop 1 else cs)

/-- The text after all parts of a pattern. -/
def restAll? (parts : List Pattern) (cs : List Char) : Option (List Char) :=
  parts.foldlM (fun cs p ↦ p.rest? cs) cs

/-- Replaces a pattern wherever it occurs, leftmost first. The first argument is the length of an
occurrence that is still to be left out. -/
def replaceAfter (parts : List Pattern) (new : List Char) : Nat → List Char → List Char
  | _, [] => []
  | skip + 1, _ :: rest => replaceAfter parts new skip rest
  | 0, c :: rest =>
    match restAll? parts (c :: rest) with
    | some after => new ++ replaceAfter parts new (rest.length - after.length) rest
    | none => c :: replaceAfter parts new 0 rest

end Pattern

/-- The patterns of measured times with their replacements, in the order in which they are
replaced. -/
def masks : List (List Pattern × String) :=
  let digit (c : Char) : Bool := c.isDigit
  [([.literal "[", .many 0 (· = ' '), .optional '-', .many 1 digit, .literal ".", .times 3 digit,
      .literal "ms]"], "[T]"),
   ([.literal "\"time\":\"", .many 0 (· ≠ '"'), .literal "\""], "\"time\":\"T\""),
   ([.literal "\"ts\":", .optional '-', .many 1 digit], "\"ts\":0"),
   ([.many 1 (· = ' '), .many 1 digit, .literal ".", .times 2 digit, .literal " ms"], " T ms"),
   ([.many 1 digit, .literal ".", .times 2 digit, .literal "ms"], "Tms")]

/-- The text with its measured times masked. -/
def masked (s : String) : String :=
  String.ofList <| masks.foldl
    (fun cs (parts, new) ↦ Pattern.replaceAfter parts new.toList 0 cs) s.toList

end Flowgraph.Timing
