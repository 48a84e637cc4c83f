import Flowgraph.Digest.Sha256
import Flowgraph.MessagePack.Encode
import Flowgraph.Pipeline.Settings

/-!
# Digests of lists of byte strings

A list of byte strings is hashed with each string after its length, so that the hashed bytes
determine the list. The key of a pipeline result is such a digest of everything the result depends
on: the bytes of the input, the name of the graph and the settings.

## Lengths first

Without the lengths, a byte could move from the end of one part to the front of the next and leave
the digest as it is. With them the parts can be read back from the hashed bytes, as long as every
length fits into eight bytes. Two different lists can then only have one digest if the hash function
itself maps two different texts to one value.
-/

namespace Flowgraph.Digest

/-- A length in eight bytes, least significant first. -/
def lengthBytes (n : Nat) : List UInt8 := (List.range 8).map fun i ↦ (n >>> (8 * i)).toUInt8

/-- A byte string after its length. -/
def frame (part : ByteArray) : ByteArray := ⟨(lengthBytes part.size).toArray⟩ ++ part

/-- The bytes that stand for a list of byte strings. -/
def framed (parts : List ByteArray) : ByteArray :=
  parts.foldl (fun out p ↦ out ++ frame p) .empty

/-- The digest of a list of byte strings. -/
def combine (parts : List ByteArray) : ByteArray := Sha256.hash (framed parts)

/-- The settings as a record of flags. -/
def fingerprint (s : Pipeline.Settings) : ByteArray :=
  MessagePack.toBytes <| .record
    [("SpecialRPO", .bool s.specialRpo), ("PropagateDeferred", .bool s.propagateDeferred),
      ("EliminateDeadCode", .bool s.eliminateDeadCode), ("ForwardPhis", .bool s.forwardPhis),
      ("Verify", .bool s.verify)]

/-- The key of the result for an input file, a graph name and settings. -/
def resultKey (input name : ByteArray) (s : Pipeline.Settings) : ByteArray :=
  combine [Sha256.hash input, name, fingerprint s]

end Flowgraph.Digest
