import Flowgraph.MessagePack.Value

/-!
# Writing MessagePack

Each value has one encoding. Numbers and texts take the shortest form that holds them, unless the
value itself asks for a width; records are maps whose keys are texts, in the order in which the
fields are listed. Floating-point numbers and extensions are values that are only read, and they are
written without their content. What a reader accepts is wider than what is written.
-/

namespace Flowgraph.MessagePack

/-- The lowest `bytes` bytes of a number, highest first. -/
def bigEndian : (bytes : Nat) → Nat → List UInt8
  | 0, _ => []
  | bytes + 1, n => (n >>> (8 * bytes)).toUInt8 :: bigEndian bytes n

/-- A number that is not negative, in its shortest form. -/
def encodeNat (n : Nat) : List UInt8 :=
  if n < 0x80 then [n.toUInt8]
  else if n < 0x100 then 0xCC :: bigEndian 1 n
  else if n < 0x10000 then 0xCD :: bigEndian 2 n
  else if n < 0x100000000 then 0xCE :: bigEndian 4 n
  else 0xCF :: bigEndian 8 n

/-- An integer in its shortest form; a negative one is written as its two's complement. -/
def encodeInt (n : Int) : List UInt8 :=
  if 0 ≤ n then encodeNat n.toNat
  else
    let complement (bytes : Nat) : Nat := (n % ((1 <<< (8 * bytes) : Nat) : Int)).toNat
    if -32 ≤ n then [(complement 1).toUInt8]
    else if -0x80 ≤ n then 0xD0 :: bigEndian 1 (complement 1)
    else if -0x8000 ≤ n then 0xD1 :: bigEndian 2 (complement 2)
    else if -0x80000000 ≤ n then 0xD2 :: bigEndian 4 (complement 4)
    else 0xD3 :: bigEndian 8 (complement 8)

/-- The head of a text of `n` bytes. -/
def strHead (n : Nat) : List UInt8 :=
  if n < 32 then [(0xA0 + n).toUInt8]
  else if n < 0x100 then 0xD9 :: bigEndian 1 n
  else if n < 0x10000 then 0xDA :: bigEndian 2 n
  else 0xDB :: bigEndian 4 n

/-- The head of a byte string of `n` bytes. -/
def binHead (n : Nat) : List UInt8 :=
  if n < 0x100 then 0xC4 :: bigEndian 1 n
  else if n < 0x10000 then 0xC5 :: bigEndian 2 n
  else 0xC6 :: bigEndian 4 n

/-- The head of a list of `n` items. -/
def arrayHead (n : Nat) : List UInt8 :=
  if n < 16 then [(0x90 + n).toUInt8]
  else if n < 0x10000 then 0xDC :: bigEndian 2 n
  else 0xDD :: bigEndian 4 n

/-- The head of a map of `n` entries. -/
def mapHead (n : Nat) : List UInt8 :=
  if n < 16 then [(0x80 + n).toUInt8]
  else if n < 0x10000 then 0xDE :: bigEndian 2 n
  else 0xDF :: bigEndian 4 n

mutual

def encode : Value → List UInt8
  | .nil => [0xC0]
  | .bool b => [if b then 0xC3 else 0xC2]
  | .int n => encodeInt n
  | .word8 n => [0xCC, n]
  | .word16 n => 0xCD :: bigEndian 2 n.toNat
  | .word32 n => 0xCE :: bigEndian 4 n.toNat
  | .float => 0xCB :: bigEndian 8 0
  | .str b => strHead b.size ++ b.toList
  | .bin b => binHead b.size ++ b.toList
  | .array items => arrayHead items.length ++ encodeItems items
  | .map entries => mapHead entries.length ++ encodeEntries entries
  | .ext => [0xD4, 0, 0]

def encodeItems : List Value → List UInt8
  | [] => []
  | v :: rest => encode v ++ encodeItems rest

/-- The bytes of the entries of a map. -/
def encodeEntries : List (Value × Value) → List UInt8
  | [] => []
  | (k, v) :: rest => encode k ++ encode v ++ encodeEntries rest

end

/-- The bytes of a value as a byte string. -/
def toBytes (v : Value) : ByteArray := ⟨(encode v).toArray⟩

end Flowgraph.MessagePack
