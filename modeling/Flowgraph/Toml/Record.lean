import Flowgraph.Text.Case
import Flowgraph.Toml.Document

/-!
# Reading records from documents

A record is read field by field. A key of the document belongs to the field of the same name, or
else to the first field with that name up to case; the keys that belong to no field are left over.
A field of the wrong type stops the reading.

The keys of a table are taken in the order of the document, so that of two keys of one field, equal
up to case, the later one wins. The format itself puts no order on the keys of a table, and a reader
that keeps a table without one may let either key win.

## Unused keys

A reader notes every path that it used. A document with other paths is refused by its callers, with
the list of the rest, so that a misspelled key does not pass for a missing one.
-/

namespace Flowgraph.Toml

/-- A step of reading a record; its state is the set of paths that were used. -/
abbrev Reading := StateT (List Key) Option

/-- How a field is read into a record: from the path of its key, what stands there, and the record
so far. -/
structure FieldReader (α : Type) where
  name : String
  read : Key → Node → α → Reading α

namespace Reading

/-- Fails: the document holds a value of another type. -/
def mismatch {α : Type} : Reading α := fun _ ↦ none

def use (path : Key) : Reading Unit :=
  modify fun used ↦ if used.contains path then used else path :: used

/-- The field that a key belongs to. -/
def fieldFor? {α : Type} (fields : List (FieldReader α)) (k : String) : Option (FieldReader α) :=
  (fields.find? (·.name = k)).or (fields.find? fun f ↦ Text.isKeyword f.name k)

/-- Reads the table at `path` into a record, key by key in the order of the document. -/
def record {α : Type} (fields : List (FieldReader α)) (path : Key) (t : Fields) (a : α) :
    Reading α :=
  t.foldlM
    (fun a (k, n) ↦
      match fieldFor? fields k with
      | none => pure a
      | some f => do
        use (path ++ [k])
        f.read (path ++ [k]) n a)
    a

def string : Node → Reading String
  | .str s => pure s
  | _ => mismatch

def integer : Node → Reading Int
  | .int n => pure n
  | _ => mismatch

/-- Reads a truth value. -/
def boolean : Node → Reading Bool
  | .bool b => pure b
  | _ => mismatch

/-- The items of an array of either form. -/
def items : Node → Reading (List Node)
  | .list l => pure l
  | .tables newest older => pure ((newest :: older).reverse.map .table)
  | _ => mismatch

def strings (n : Node) : Reading (List String) := do (← items n).mapM string

def table {α : Type} (fields : List (FieldReader α)) (path : Key) (n : Node) (a : α) : Reading α :=
  match n with
  | .table t => record fields path t a
  | _ => mismatch

/-- Reads an array of tables, each into a fresh record. -/
def records {α : Type} (fields : List (FieldReader α)) (zero : α) (path : Key) (n : Node) :
    Reading (List α) := do
  (← items n).mapM fun n ↦ table fields path n zero

end Reading

/-- The names of control characters that have an escape of one letter, with its letter. -/
def shortEscapes : List (Char × Char) :=
  [('"', '"'), ('\\', '\\'), ('\x08', 'b'), ('\t', 't'), ('\n', 'n'), ('\x0c', 'f'), ('\r', 'r')]

/-- A text with escapes for quotes, backslashes and controls. -/
def escapedBytes (bytes : ByteArray) : ByteArray :=
  bytes.toList.foldl
    (fun out b ↦
      let c := Char.ofNat b.toNat
      match shortEscapes.lookup c with
      | some letter => out ++ ("\\" ++ letter.toString).toUTF8
      | none =>
        if b < 0x20 ∨ b = 0x7F then
          out ++ ("\\u00" ++ String.ofList (hex b.toNat)).toUTF8
        else out.push b)
    .empty
where
  /-- The two hexadecimal digits of a byte. -/
  hex (n : Nat) : List Char := [Nat.digitChar (n / 16), Nat.digitChar (n % 16)]

/-- A text between double quotes. -/
def quotedBytes (bytes : ByteArray) : ByteArray :=
  "\"".toUTF8 ++ escapedBytes bytes ++ "\"".toUTF8

/-- A part of a key as messages write it: bare if it can be. -/
def keyPartText (part : String) : String :=
  if part.isEmpty then "\"\""
  else if part.toList.all isBare then part
  else (String.fromUTF8? (quotedBytes part.toUTF8)).getD part

/-- A key as messages write it. -/
def keyText (k : Key) : String := ".".intercalate (k.map keyPartText)

/-- The paths of a document that were not used, in the order of its text. -/
def Document.unused (d : Document) (used : List Key) : List Key :=
  d.defined.reverse.filter (!used.contains ·)

end Flowgraph.Toml
