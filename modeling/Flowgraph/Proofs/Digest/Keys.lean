import Flowgraph.Digest.Framed
import Flowgraph.Proofs.Files.Paths
import Flowgraph.Proofs.MessagePack.RoundTrip
import Flowgraph.Text.Quoted

/-!
# Keys determine what they are made of

The key of a result is a digest of three parts, each after its length in eight bytes. The first part
is a digest itself and the last one a record of flags, so both have a fixed length, and the bytes
that are hashed determine all three, however long the name between them is. Where the hash is
injective the key determines the input, the name and the settings.

In hexadecimal different keys give different names.
-/

namespace Flowgraph

namespace Digest

/-! ## Framed parts

Two lists of three framed parts that agree as bytes agree part by part if the first and the last
part have known sizes; the part between them gets what is left. -/

theorem size_frame (part : ByteArray) : (frame part).size = 8 + part.size := by
  rw [frame, ByteArray.size_append]
  rfl

private theorem frame_inj {p q : ByteArray} (h : frame p = frame q) : p = q := by
  rw [frame, frame] at h
  refine ((ByteArray.append_eq_append_iff_of_size_eq_left ?_).mp h).2
  change (lengthBytes p.size).length = (lengthBytes q.size).length
  rw [lengthBytes, lengthBytes, List.length_map, List.length_map]

private theorem framed_inj {a b c a' b' c' : ByteArray} (ha : a.size = a'.size)
    (hc : c.size = c'.size) (h : framed [a, b, c] = framed [a', b', c']) :
    a = a' ∧ b = b' ∧ c = c' := by
  change ByteArray.empty ++ frame a ++ frame b ++ frame c
    = ByteArray.empty ++ frame a' ++ frame b' ++ frame c' at h
  rw [ByteArray.empty_append, ByteArray.empty_append, ByteArray.append_assoc,
    ByteArray.append_assoc] at h
  have hsize := congrArg ByteArray.size h
  simp only [ByteArray.size_append, size_frame] at hsize
  have hb : b.size = b'.size := by omega
  obtain ⟨hfirst, h⟩ := (ByteArray.append_eq_append_iff_of_size_eq_left
    (by rw [size_frame, size_frame, ha])).mp h
  obtain ⟨hsecond, hthird⟩ := (ByteArray.append_eq_append_iff_of_size_eq_left
    (by rw [size_frame, size_frame, hb])).mp h
  exact ⟨frame_inj hfirst, frame_inj hsecond, frame_inj hthird⟩

private theorem length_bigEndian (count n : Nat) : (Sha256.bigEndian count n).length = count := by
  simp [Sha256.bigEndian]

private theorem size_hash (bytes : ByteArray) : (Sha256.hash bytes).size = 32 := by
  rw [Sha256.hash]
  change (List.flatMap _ _).length = 32
  simp [Sha256.State.words, length_bigEndian]

/-! ## Settings -/

def flags (s : Pipeline.Settings) : MessagePack.Value :=
  .record
    [("SpecialRPO", .bool s.specialRpo), ("PropagateDeferred", .bool s.propagateDeferred),
      ("EliminateDeadCode", .bool s.eliminateDeadCode), ("ForwardPhis", .bool s.forwardPhis),
      ("Verify", .bool s.verify)]

private theorem plain_flags (s : Pipeline.Settings) : MessagePack.Plain (flags s) := by
  refine MessagePack.plain_record (by simp) ?_ ?_
  · simp only [List.forall_mem_cons, List.not_mem_nil, false_imp_iff, implies_true, and_true]
    decide
  · simp only [List.forall_mem_cons, List.not_mem_nil, false_imp_iff, implies_true, and_true]
    exact ⟨.bool _, .bool _, .bool _, .bool _, .bool _⟩

private theorem fingerprint_inj {s s' : Pipeline.Settings} (h : fingerprint s = fingerprint s') :
    s = s' := by
  have hread := congrArg MessagePack.ofBytes? h
  have hs := MessagePack.ofBytes?_toBytes (plain_flags s)
  have hs' := MessagePack.ofBytes?_toBytes (plain_flags s')
  have hflags : flags s = flags s' := Option.some.inj (hs.symm.trans (hread.trans hs'))
  have hfields : s.specialRpo = s'.specialRpo ∧ s.propagateDeferred = s'.propagateDeferred ∧
      s.eliminateDeadCode = s'.eliminateDeadCode ∧ s.forwardPhis = s'.forwardPhis ∧
      s.verify = s'.verify := by
    simpa [flags, MessagePack.Value.record] using hflags
  obtain ⟨h₁, h₂, h₃, h₄, h₅⟩ := hfields
  cases s
  cases s'
  simp_all

private theorem size_fingerprint (s s' : Pipeline.Settings) :
    (fingerprint s).size = (fingerprint s').size := by
  change (MessagePack.encode (flags s)).length = (MessagePack.encode (flags s')).length
  simp only [flags, MessagePack.Value.record, MessagePack.encode, MessagePack.encodeEntries,
    List.map_cons, List.map_nil, List.length_append, List.length_cons]

/-! ## Keys -/

/-- What is hashed last for the key of a result. -/
def keyParts (input name : ByteArray) (s : Pipeline.Settings) : ByteArray :=
  framed [Sha256.hash input, name, fingerprint s]

/-- Equal keys come from the same input, name and settings, if the hash tells the inputs apart and
what is hashed last. -/
theorem resultKey_inj {input input' name name' : ByteArray} {s s' : Pipeline.Settings}
    (hinput : Sha256.hash input = Sha256.hash input' → input = input')
    (hparts : Sha256.hash (keyParts input name s) = Sha256.hash (keyParts input' name' s') →
      keyParts input name s = keyParts input' name' s')
    (h : resultKey input name s = resultKey input' name' s') :
    input = input' ∧ name = name' ∧ s = s' := by
  obtain ⟨hhash, hname, hs⟩ := framed_inj (by rw [size_hash, size_hash])
    (size_fingerprint s s') (hparts h)
  exact ⟨hinput hhash, hname, fingerprint_inj hs⟩

end Digest

namespace Text

/-! ## Hexadecimal

Every byte gives two digits, and every two digits give the byte back. A key in hexadecimal is an
element of a path: it has no slash and is neither empty nor a dot. -/

/-- The value of two hexadecimal digits. -/
def hexValue (cs : List Char) : Nat :=
  cs.foldl (fun n c ↦ 16 * n + if c ≤ '9' then c.toNat - '0'.toNat else c.toNat - 'a'.toNat + 10) 0

theorem hexDigits_byte : ∀ n < 256, (hexDigits 2 n).toList.length = 2 ∧
    hexValue (hexDigits 2 n).toList = n ∧ '/' ∉ (hexDigits 2 n).toList := by
  simp only [hexDigits, String.toList_ofList]
  decide +kernel

theorem toList_hexBytes (b : ByteArray) :
    (hexBytes b).toList = b.data.toList.flatMap fun c ↦ (hexDigits 2 c.toNat).toList := by
  rw [hexBytes, String.toList_join, List.flatMap_map, toList_eq_data]

private theorem flatMap_hexDigits_inj {l l' : List UInt8}
    (h : l.flatMap (fun c ↦ (hexDigits 2 c.toNat).toList)
      = l'.flatMap (fun c ↦ (hexDigits 2 c.toNat).toList)) : l = l' := by
  have hne : ∀ (c : UInt8) (l : List UInt8),
      (c :: l).flatMap (fun c ↦ (hexDigits 2 c.toNat).toList) ≠ [] := by
    intro c l hnil
    have hlen := congrArg List.length hnil
    rw [List.flatMap_cons, List.length_append, (hexDigits_byte _ c.toNat_lt).1,
      List.length_nil] at hlen
    omega
  induction l generalizing l' with
  | nil =>
    cases l' with
    | nil => rfl
    | cons c l' => exact absurd h.symm (hne c l')
  | cons c l ih =>
    cases l' with
    | nil => exact absurd h (hne c l)
    | cons c' l' =>
      obtain ⟨hsize, hvalue, -⟩ := hexDigits_byte _ c.toNat_lt
      obtain ⟨hsize', hvalue', -⟩ := hexDigits_byte _ c'.toNat_lt
      rw [List.flatMap_cons, List.flatMap_cons] at h
      -- every byte takes two digits, so that equal texts agree digit pair by digit pair
      obtain ⟨hdigits, hrest⟩ := List.append_inj h (by rw [hsize, hsize'])
      rw [← hdigits, hvalue] at hvalue'
      rw [UInt8.toNat_inj.mp hvalue', ih hrest]

theorem hexBytes_inj {a b : ByteArray} (h : hexBytes a = hexBytes b) : a = b := by
  have hlist := congrArg String.toList h
  rw [toList_hexBytes, toList_hexBytes] at hlist
  exact ByteArray.ext (Array.toList_inj.mp (flatMap_hexDigits_inj hlist))

theorem isElement_hexBytes (b : ByteArray) : Files.IsElement (hexBytes b) := by
  rw [Files.IsElement, toList_hexBytes, List.mem_flatMap]
  rintro ⟨c, -, hc⟩
  exact (hexDigits_byte _ c.toNat_lt).2.2 hc

end Text

end Flowgraph
