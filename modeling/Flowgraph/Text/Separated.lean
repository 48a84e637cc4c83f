/-!
# Comma-separated texts

A record is one line of fields between commas. A field that begins with a quote ends with the next
lone quote; inside it commas and line ends stand for themselves and two quotes for one. Quotes in
any other place are errors, which name the line and the column, counted in bytes. Empty lines before
the record are skipped, and what follows it is ignored.
-/

namespace Flowgraph.Text.Separated

/-- What is wrong with a record. -/
inductive Fault where
  /-- A quote inside a field that does not begin with one. -/
  | bareQuote
  /-- A quoted field that does not end, or goes on after its end. -/
  | quotedField
deriving DecidableEq

def Fault.message : Fault → String
  | .bareQuote => "bare \" in non-quoted-field"
  | .quotedField => "extraneous or missing \" in quoted-field"

/-- Why there is no record. -/
inductive Error where
  /-- There are only empty lines. -/
  | noRecord
  /-- The record starts on one line and has a fault on the same or a later one. -/
  | malformed (start line column : Nat) (fault : Fault)
deriving DecidableEq

def Error.message : Error → String
  | .noRecord => "EOF"
  | .malformed start line column fault =>
    (if start = line then "" else s!"record on line {start}; ")
      ++ s!"parse error on line {line}, column {column}: {fault.message}"

/-- The text with plain line ends: a carriage return before a line end or at the very end is left
out. -/
def plainLines : List Char → List Char
  | [] => []
  | '\r' :: rest =>
    match rest with
    | [] => []
    | '\n' :: _ => plainLines rest
    | _ => '\r' :: plainLines rest
  | c :: rest => c :: plainLines rest

/-- Where in a record the reader stands. -/
inductive State where
  | fieldStart
  | plain
  | quoted
  /-- After a quote inside a quoted field. -/
  | closing
deriving DecidableEq

/-- The place of the next character. -/
structure Position where
  line : Nat
  column : Nat

/-- The place after a character of the same line. -/
def Position.next (p : Position) (c : Char) : Position := { p with column := p.column + c.utf8Size }

/-- The fields of a record from a place on, after the characters of the current field, latest
first. -/
def fieldsFrom (start : Nat) :
    State → Position → List Char → List Char → Except Error (List String)
  | .quoted, p, _, [] => .error (.malformed start p.line p.column .quotedField)
  | _, _, field, [] => .ok [String.ofList field.reverse]
  | .quoted, p, field, c :: rest =>
    if c = '"' then fieldsFrom start .closing (p.next c) field rest
    else
      let after : Position := if c = '\n' && !rest.isEmpty then ⟨p.line + 1, 1⟩ else p.next c
      fieldsFrom start .quoted after (c :: field) rest
  | .closing, p, field, c :: rest =>
    if c = '"' then fieldsFrom start .quoted (p.next c) (c :: field) rest
    else if c = ',' then do
      return String.ofList field.reverse :: (← fieldsFrom start .fieldStart (p.next c) [] rest)
    else if c = '\n' then .ok [String.ofList field.reverse]
    else .error (.malformed start p.line (p.column - 1) .quotedField)
  | state, p, field, c :: rest =>
    if c = '"' then
      if state = .fieldStart then fieldsFrom start .quoted (p.next c) [] rest
      else .error (.malformed start p.line p.column .bareQuote)
    else if c = ',' then do
      return String.ofList field.reverse :: (← fieldsFrom start .fieldStart (p.next c) [] rest)
    else if c = '\n' then .ok [String.ofList field.reverse]
    else fieldsFrom start .plain (p.next c) (c :: field) rest

/-- The fields of the first record of a text. -/
def fields (s : String) : Except Error (List String) :=
  let cs := plainLines s.toList
  let skipped := (cs.takeWhile (· = '\n')).length
  match cs.drop skipped with
  | [] => .error .noRecord
  | record => fieldsFrom (skipped + 1) .fieldStart ⟨skipped + 1, 1⟩ [] record

end Flowgraph.Text.Separated
