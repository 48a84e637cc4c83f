import Flowgraph.MessagePack.Value

/-!
# Reading MessagePack

`decode?` reads one value off the front of a byte list and gives the rest. Every length is read
whatever width it is written in.

## Lengths

A format byte says what follows it and, for the longer forms, in how many bytes the length is given.
The decoder takes what it needs from the front of the list and never looks back. A length that is
longer than the rest of the bytes is an error and not a shorter value.
-/

namespace Flowgraph.MessagePack

/-- A reader: what it reads off the front of a byte list, and the rest. -/
abbrev Reader (α : Type) := List UInt8 → Option (α × List UInt8)

def takeBytes (n : Nat) : Reader (List UInt8) := fun bytes ↦
  let (front, rest) := bytes.splitAt n
  if front.length = n then some (front, rest) else none

/-- A number of `n` bytes, highest first. -/
def takeNat (n : Nat) : Reader Nat := fun bytes ↦ do
  let (front, rest) ← takeBytes n bytes
  return (front.foldl (fun acc b ↦ acc * 256 + b.toNat) 0, rest)

/-- A number of `n` bytes in two's complement. -/
def takeInt (n : Nat) : Reader Int := fun bytes ↦ do
  let (k, rest) ← takeNat n bytes
  return ((k : Int).bmod (1 <<< (8 * n)), rest)

def skipBytes {α : Type} (n : Nat) (a : α) : Reader α := fun bytes ↦ do
  return (a, (← takeBytes n bytes).2)

/-- A byte string of `n` bytes. -/
def takeBlob (n : Nat) (f : ByteArray → Value) : Reader Value := fun bytes ↦ do
  let (front, rest) ← takeBytes n bytes
  return (f ⟨front.toArray⟩, rest)

/-- `n` items, one after the other. -/
def takeMany {α : Type} (item : Reader α) : Nat → Reader (List α)
  | 0, bytes => some ([], bytes)
  | n + 1, bytes => do
    let (a, rest) ← item bytes
    let (as, rest) ← takeMany item n rest
    return (a :: as, rest)

/-- Two items, one after the other. -/
def takePair {α : Type} (item : Reader α) : Reader (α × α) := fun bytes ↦ do
  let (a, rest) ← item bytes
  let (b, rest) ← item rest
  return ((a, b), rest)

/-- A length of `n` bytes, and what follows it. -/
def withLength {α : Type} (n : Nat) (body : Nat → Reader α) : Reader α := fun bytes ↦ do
  let (k, rest) ← takeNat n bytes
  body k rest

/-- A value of at most `depth` levels. -/
def decodeWithin : (depth : Nat) → Reader Value
  | 0, _ => none
  | _ + 1, [] => none
  | depth + 1, head :: rest =>
    let item := decodeWithin depth
    let list (n : Nat) : Reader Value := fun bytes ↦ do
      let (items, rest) ← takeMany item n bytes
      return (.array items, rest)
    let map (n : Nat) : Reader Value := fun bytes ↦ do
      let (entries, rest) ← takeMany (takePair item) n bytes
      return (.map entries, rest)
    let str (n : Nat) : Reader Value := takeBlob n .str
    let bin (n : Nat) : Reader Value := takeBlob n .bin
    let ext (n : Nat) : Reader Value := skipBytes (n + 1) .ext
    let nat (n : Nat) (f : Nat → Value) : Option (Value × List UInt8) := do
      let (k, rest) ← takeNat n rest
      return (f k, rest)
    let int (n : Nat) : Option (Value × List UInt8) := do
      let (k, rest) ← takeInt n rest
      return (.int k, rest)
    let code := head.toNat
    if code < 0x80 then some (.int code, rest)
    else if code < 0x90 then map (code - 0x80) rest
    else if code < 0xA0 then list (code - 0x90) rest
    else if code < 0xC0 then str (code - 0xA0) rest
    else if 0xE0 ≤ code then some (.int ((code : Int) - 256), rest)
    else
      match code with
      | 0xC0 => some (.nil, rest)
      | 0xC2 => some (.bool false, rest)
      | 0xC3 => some (.bool true, rest)
      | 0xC4 => withLength 1 bin rest
      | 0xC5 => withLength 2 bin rest
      | 0xC6 => withLength 4 bin rest
      | 0xC7 => withLength 1 ext rest
      | 0xC8 => withLength 2 ext rest
      | 0xC9 => withLength 4 ext rest
      | 0xCA => skipBytes 4 .float rest
      | 0xCB => skipBytes 8 .float rest
      | 0xCC => nat 1 fun k ↦ .word8 k.toUInt8
      | 0xCD => nat 2 fun k ↦ .word16 k.toUInt16
      | 0xCE => nat 4 fun k ↦ .word32 k.toUInt32
      | 0xCF => nat 8 fun k ↦ .int k
      | 0xD0 => int 1
      | 0xD1 => int 2
      | 0xD2 => int 4
      | 0xD3 => int 8
      | 0xD4 => ext 1 rest
      | 0xD5 => ext 2 rest
      | 0xD6 => ext 4 rest
      | 0xD7 => ext 8 rest
      | 0xD8 => ext 16 rest
      | 0xD9 => withLength 1 str rest
      | 0xDA => withLength 2 str rest
      | 0xDB => withLength 4 str rest
      | 0xDC => withLength 2 list rest
      | 0xDD => withLength 4 list rest
      | 0xDE => withLength 2 map rest
      | 0xDF => withLength 4 map rest
      | _ => none

/-- The value at the front of a byte list, and the rest. A value is nested no deeper than it is
long. -/
def decode? : Reader Value := fun bytes ↦ decodeWithin (bytes.length + 1) bytes

/-- The value at the front of a byte string; what follows it is ignored. -/
def ofBytes? (bytes : ByteArray) : Option Value := (decode? bytes.toList).map Prod.fst

end Flowgraph.MessagePack
