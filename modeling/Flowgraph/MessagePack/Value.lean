/-!
# MessagePack values

The values of the MessagePack format. Unsigned numbers of 8, 16 and 32 bits can be written in
exactly that width, whatever their size; any other integer takes the shortest form.
-/

namespace Flowgraph.MessagePack

/-- A MessagePack value. -/
inductive Value where
  | nil
  | bool (b : Bool)
  /-- An integer in the shortest form. -/
  | int (n : Int)
  | word8 (n : UInt8)
  | word16 (n : UInt16)
  | word32 (n : UInt32)
  /-- A floating-point number; its value has no use here. -/
  | float
  | str (bytes : ByteArray)
  | bin (bytes : ByteArray)
  | array (items : List Value)
  | map (entries : List (Value × Value))
  /-- An application-specific value; its content has no use here. -/
  | ext

namespace Value

def text (s : String) : Value := .str s.toUTF8

/-- A record: a map whose keys are names. -/
def record (fields : List (String × Value)) : Value :=
  .map (fields.map fun (name, v) ↦ (.text name, v))

def listOrNil (items : List Value) : Value := if items.isEmpty then .nil else .array items

/-- Any integer; nothing counts as zero. -/
def toInt? : Value → Option Int
  | .nil => some 0
  | .int n => some n
  | .word8 n => some n.toNat
  | .word16 n => some n.toNat
  | .word32 n => some n.toNat
  | _ => none

/-- An integer cut down to its lowest `bits` bits. -/
def toBits? (bits : Nat) (v : Value) : Option Nat :=
  v.toInt?.map fun (n : Int) ↦ (n % ((1 <<< bits : Nat) : Int)).toNat

/-- An integer cut down to 64 bits with a sign. -/
def toInt64? (v : Value) : Option Int := v.toInt?.map fun (n : Int) ↦ n.bmod 0x10000000000000000

/-- A truth value; nothing counts as false. -/
def toBool? : Value → Option Bool
  | .nil => some false
  | .bool b => some b
  | _ => none

/-- The bytes of a text or a byte string, `none` inside for nothing. -/
def toBytes? : Value → Option (Option ByteArray)
  | .nil => some none
  | .str b => some (some b)
  | .bin b => some (some b)
  | _ => none

/-- A text; nothing counts as empty. -/
def toText? (v : Value) : Option ByteArray := v.toBytes?.map (·.getD .empty)

/-- The items of a list, `none` inside for nothing. -/
def toList? : Value → Option (Option (List Value))
  | .nil => some none
  | .array items => some (some items)
  | _ => none

/-- Reads a value as a record on top of an earlier one. A map sets the fields that it names and
leaves the others alone; nothing and the empty list reset all of them; any other list gives
exactly the fields in order. -/
def toRecord? {α : Type} (zero : α) (fields : List (String × (Value → α → Option α)))
    (v : Value) (old : α) : Option α :=
  match v with
  | .nil => some zero
  | .array [] => some zero
  | .array items =>
    if items.length = fields.length then
      (fields.zip items).foldlM (fun r (field, item) ↦ field.2 item r) old
    else none
  | .map entries =>
    entries.foldlM
      (fun r (k, item) ↦ do
        let name ← k.toText?
        match fields.find? (·.1.toUTF8 == name) with
        | some field => field.2 item r
        | none => some r)
      old
  | _ => none

end Value

end Flowgraph.MessagePack
