import Flowgraph.Text.Utf8
import Flowgraph.Toml.Number

/-!
# TOML statements

A TOML text is a list of statements: assignments of a value to a dotted key, and headers that open
a table or a further table of an array. This module reads the statements; what they define is the
subject of the document.
-/

namespace Flowgraph.Toml

abbrev Key := List String

/-- A value as it is written. -/
inductive Value where
  | str (s : String)
  | int (n : Int)
  | bool (b : Bool)
  /-- A floating-point number or a date. -/
  | other
  | array (items : List Value)
  | inline (entries : List (Key × Value))

/-- A statement. -/
inductive Statement where
  | table (key : Key)
  | tableArray (key : Key)
  | assign (key : Key) (value : Value)

/-- A reader: what it reads off the front of the text, and the rest. -/
abbrev Reader (α : Type) := List Char → Option (α × List Char)

/-! ## Characters -/

def isBlank (c : Char) : Bool := c = ' ' || c = '\t'

def isNewline (c : Char) : Bool := c = '\n' || c = '\r'

/-- A character of a key without quotes. -/
def isBare (c : Char) : Bool := c.isAlphanum || c = '_' || c = '-'

/-- A control character that must not occur. -/
def isControl (c : Char) : Bool := (c < ' ' && c ≠ '\t' && !isNewline c) || c = '\x7f'

/-- Does every carriage return come before a line feed? -/
def returnsPaired : List Char → Bool
  | [] => true
  | '\r' :: '\n' :: rest => returnsPaired rest
  | '\r' :: _ => false
  | _ :: rest => returnsPaired rest

/-- The characters of a text file: UTF-8 without control characters and without the replacement
character. A byte order mark is left out. -/
def characters? (bytes : ByteArray) : Option (List Char) := do
  let bytes := match bytes.toList with
    | 0xFF :: 0xFE :: rest | 0xFE :: 0xFF :: rest | 0xEF :: 0xBB :: 0xBF :: rest => rest
    | all => all
  let cs ← (Text.piecesAfter 0 bytes).mapM fun
    | .char c => some c
    | .byte _ => none
  if cs.any isControl || cs.contains '\uFFFD' || !returnsPaired cs then none else some cs

def skipBlanks : List Char → List Char := List.dropWhile isBlank

/-- Leaves out a comment, up to the end of its line. -/
def skipComment : List Char → List Char := List.dropWhile (!isNewline ·)

/-- Leaves out blanks, newlines and comments. -/
def skipSpace : List Char → List Char
  | [] => []
  | c :: rest =>
    if isBlank c || isNewline c then skipSpace rest
    else if c = '#' then afterComment rest
    else c :: rest
where
  /-- Leaves out the rest of a comment and the space after it. -/
  afterComment : List Char → List Char
    | [] => []
    | c :: rest => if isNewline c then skipSpace rest else afterComment rest

/-! ## Strings -/

def escaped? (digits : List Char) : Option Char := do
  let values ← digits.mapM hexValue?
  let n := values.foldl (fun n d ↦ n * 16 + d) 0
  if n.isValidChar then some (Char.ofNat n) else none

/-- The character that an escape of one letter stands for. -/
def simpleEscape? : Char → Option Char
  | 'b' => some '\x08'
  | 't' => some '\t'
  | 'n' => some '\n'
  | 'f' => some '\x0c'
  | 'r' => some '\r'
  | '"' => some '"'
  | '\\' => some '\\'
  | _ => none

/-- Puts a character in front of what a reader gives. -/
def prepend (c : Char) (r : Option (List Char × List Char)) : Option (List Char × List Char) :=
  r.map fun (cs, rest) ↦ (c :: cs, rest)

/-- The rest of a string between double quotes. -/
def basicString : Reader (List Char)
  | [] => none
  | '"' :: rest => some ([], rest)
  | '\\' :: 'u' :: a :: b :: c :: d :: rest =>
    match escaped? [a, b, c, d] with
    | some ch => prepend ch (basicString rest)
    | none => none
  | '\\' :: 'U' :: a :: b :: c :: d :: e :: f :: g :: h :: rest =>
    match escaped? [a, b, c, d, e, f, g, h] with
    | some ch => prepend ch (basicString rest)
    | none => none
  | '\\' :: c :: rest =>
    match simpleEscape? c with
    | some ch => prepend ch (basicString rest)
    | none => none
  | c :: rest => if isNewline c then none else prepend c (basicString rest)

/-- The rest of a string between single quotes. -/
def rawString : Reader (List Char)
  | [] => none
  | '\'' :: rest => some ([], rest)
  | c :: rest => if isNewline c then none else prepend c (rawString rest)

/-- Leaves out a line break at the front. -/
def skipFirstNewline : List Char → List Char
  | '\n' :: rest | '\r' :: '\n' :: rest => rest
  | cs => cs

/-- The end of a string between triple quotes, where `run` quotes have been read: three close it,
and up to `spare` more belong to the text. -/
def closeRun (quote : Char) (spare run : Nat) (rest : List Char) :
    Option (List Char × List Char) :=
  if run ≤ spare + 3 then some (List.replicate (run - 3) quote, rest) else none

/-- What stands before the place that a reader of a string has come to. -/
inductive Before where
  /-- A backslash at the end of a line, which swallows the white space. -/
  | fold
  /-- An escaped backslash, and perhaps quotes after it. -/
  | backslash
  | other
deriving DecidableEq

/-- What stands before the place after a quote. -/
def Before.quote : Before → Before
  | .backslash => .backslash
  | _ => .other

/-- The number of quotes that may stand in front of the closing ones: two, and three after an
escaped backslash. -/
def Before.spare : Before → Nat
  | .backslash => 3
  | _ => 2

/-- The rest of a string between triple double quotes. `run` counts the quotes read last, which are
not part of the text yet, and `before` says what stands in front of them. -/
def basicText : (run : Nat) → (before : Before) → Reader (List Char)
  | run, before, [] => if 3 ≤ run then closeRun '"' before.spare run [] else none
  | run, before, c :: rest =>
    if c = '"' then basicText (run + 1) before.quote rest
    else if 3 ≤ run then closeRun '"' before.spare run (c :: rest)
    else
      let quotes (r : Option (List Char × List Char)) : Option (List Char × List Char) :=
        r.map fun (cs, rest) ↦ (List.replicate run '"' ++ cs, rest)
      if before = .fold && (isBlank c || isNewline c) then basicText 0 .fold rest
      else if c ≠ '\\' then quotes (prepend c (basicText 0 .other rest))
      else
        match rest with
        | 'u' :: x :: y :: z :: w :: rest =>
          match escaped? [x, y, z, w] with
          | some ch => quotes (prepend ch (basicText 0 .other rest))
          | none => none
        | 'U' :: x :: y :: z :: w :: x' :: y' :: z' :: w' :: rest =>
          match escaped? [x, y, z, w, x', y', z', w'] with
          | some ch => quotes (prepend ch (basicText 0 .other rest))
          | none => none
        | d :: rest =>
          if isNewline d then quotes (basicText 0 .fold rest)
          else if isBlank d then
            if ((rest.dropWhile isBlank).head?.map isNewline).getD false then
              quotes (basicText 0 .fold rest)
            else none
          else
            match simpleEscape? d with
            | some ch =>
              let before := if d = '\\' then .backslash else .other
              quotes (prepend ch (basicText 0 before rest))
            | none => none
        | [] => none

/-- The rest of a string between triple single quotes. -/
def rawText : (run : Nat) → Reader (List Char)
  | run, [] => if 3 ≤ run then closeRun '\'' 2 run [] else none
  | run, c :: rest =>
    if c = '\'' then rawText (run + 1) rest
    else if 3 ≤ run then closeRun '\'' 2 run (c :: rest)
    else (prepend c (rawText 0 rest)).map fun (cs, rest) ↦ (List.replicate run '\'' ++ cs, rest)

/-! ## Keys -/

def keyPart : Reader String
  | '"' :: rest => (basicString rest).map fun (cs, rest) ↦ (String.ofList cs, rest)
  | '\'' :: rest => (rawString rest).map fun (cs, rest) ↦ (String.ofList cs, rest)
  | cs =>
    let part := cs.takeWhile isBare
    if part.isEmpty then none else some (String.ofList part, cs.dropWhile isBare)

/-- A key of at most `parts` parts. -/
def keyWithin : (parts : Nat) → Reader Key
  | 0, _ => none
  | parts + 1, cs => do
    let (part, rest) ← keyPart (skipBlanks cs)
    match skipBlanks rest with
    | '.' :: rest =>
      let (more, rest) ← keyWithin parts rest
      return (part :: more, rest)
    | rest => return ([part], rest)

/-- A key. It stands on one line and has no more parts than the line has characters. -/
def key : Reader Key := fun cs ↦ keyWithin (cs.takeWhile (!isNewline ·)).length cs

/-! ## Values -/

def number : Reader Value := fun cs ↦ do
  match ← Lexeme.cut? cs with
  | (.integer ds, rest) => return (.int (← integerValue? ds), rest)
  | (.float ds, rest) => if isFloat ds then some (.other, rest) else none
  | (.date ds, rest) => if isDate ds then some (.other, rest) else none

/-- The rest of an array: items and what divides them. -/
def arrayItems (item : Reader Value) : (items : Nat) → Reader (List Value)
  | 0, _ => none
  | items + 1, cs =>
    match skipSpace cs with
    | ']' :: rest => some ([], rest)
    | cs => do
      let (v, rest) ← item (skipBlanks cs)
      match skipSpace rest with
      | ',' :: rest =>
        let (vs, rest) ← arrayItems item items rest
        return (v :: vs, rest)
      | ']' :: rest => return ([v], rest)
      | _ => none

/-- The entries of an inline table up to its end. -/
def inlineEntries (item : Reader Value) : (entries : Nat) → Reader (List (Key × Value))
  | 0, _ => none
  | entries + 1, cs => do
    let (k, rest) ← key cs
    let rest ← literal '=' rest
    let (v, rest) ← item (skipBlanks rest)
    match skipBlanks rest with
    | ',' :: rest =>
      let (more, rest) ← inlineEntries item entries rest
      return ((k, v) :: more, rest)
    | '}' :: rest => return ([(k, v)], rest)
    | _ => none

/-- A value of at most `depth` levels, in a text shorter than `size`. -/
def valueWithin (size : Nat) : (depth : Nat) → Reader Value
  | 0, _ => none
  | depth + 1, cs =>
    let item := valueWithin size depth
    let text (r : Option (List Char × List Char)) : Option (Value × List Char) :=
      r.map fun (s, rest) ↦ (.str (String.ofList s), rest)
    match cs with
    | '"' :: '"' :: '"' :: rest => text (basicText 0 .other (skipFirstNewline rest))
    | '"' :: rest => text (basicString rest)
    | '\'' :: '\'' :: '\'' :: rest => text (rawText 0 (skipFirstNewline rest))
    | '\'' :: rest => text (rawString rest)
    | '[' :: rest => do
      let (vs, rest) ← arrayItems item size rest
      return (.array vs, rest)
    | '{' :: rest =>
      match skipBlanks rest with
      | '}' :: rest => some (.inline [], rest)
      | rest => do
        let (es, rest) ← inlineEntries item size rest
        return (.inline es, rest)
    | 'i' :: 'n' :: 'f' :: rest | 'n' :: 'a' :: 'n' :: rest => some (.other, rest)
    | 't' :: 'r' :: 'u' :: 'e' :: rest => some (.bool true, rest)
    | 'f' :: 'a' :: 'l' :: 's' :: 'e' :: rest => some (.bool false, rest)
    | cs => number cs

/-- A value in a text shorter than `size`; it is nested no deeper than it is long. -/
def value (size : Nat) : Reader Value := valueWithin size size

/-! ## Statements -/

/-- The end of a statement: blanks, a comment, and the end of the line or of the text. -/
def endOfLine : List Char → Option (List Char) := fun cs ↦
  match skipBlanks cs with
  | [] => some []
  | '#' :: rest => some (skipComment rest)
  | c :: rest => if isNewline c then some rest else none

/-- A statement of a text shorter than `size`, up to the end of its line. -/
def statement (size : Nat) : Reader Statement
  | '[' :: '[' :: rest => do
    let (k, rest) ← key rest
    let rest ← literal ']' rest
    let rest ← literal ']' rest
    return (.tableArray k, ← endOfLine rest)
  | '[' :: rest => do
    let (k, rest) ← key rest
    let rest ← literal ']' rest
    return (.table k, ← endOfLine rest)
  | cs => do
    let (k, rest) ← key cs
    let rest ← literal '=' rest
    let (v, rest) ← value size (skipBlanks rest)
    return (.assign k v, ← endOfLine rest)

/-- At most `count` statements, up to the end of a text shorter than `size`. -/
def statementsWithin (size : Nat) : (count : Nat) → List Char → Option (List Statement)
  | 0, _ => none
  | count + 1, cs =>
    match skipSpace cs with
    | [] => some []
    | cs => do
      let (s, rest) ← statement size cs
      return s :: (← statementsWithin size count rest)

def statements (cs : List Char) : Option (List Statement) :=
  let size := cs.length + 1
  statementsWithin size size cs

end Flowgraph.Toml
