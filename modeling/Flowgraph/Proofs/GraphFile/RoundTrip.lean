import Flowgraph.Proofs.GraphFile.Records
import Flowgraph.Proofs.Pipeline.Storing

/-!
# Graph files are read back

A graph that was read from a file of either form goes into the binary form and comes back as it was.
So does a graph from a textual file with the textual form, but for its name, which is brought into
normal form once more.

## From one form to the other

The binary form holds any bytes as a name, a mnemonic or a callee. A textual file says less: its
mnemonics are trimmed, the names of the other operations are no mnemonics whatever their case, and
neither a mnemonic nor a callee is empty. `textual_decode_encode_iff` says which binary files
survive the way through the textual form, and `exists_textual_decode_encode_ne` has one that does
not: an operation called `Dead` comes back as a dead one.
-/

namespace Flowgraph.GraphFile

open Pipeline (sampleFork)

variable {bytes : ByteArray} {g : Graph}

/-- What is known of a graph from a file of either form. -/
theorem decoded_of_decode (hread : Binary.decode bytes = .ok g ∨ Textual.decode bytes = .ok g) :
    Decoded Operation.Recordable g := by
  rcases hread with hread | hread
  · rw [Binary.decode] at hread
    split at hread
    · cases hread
    · exact (Binary.decoded_of_graph hread).1
  · obtain ⟨entry, -, hgraph⟩ := exists_of_bind_ok hread
    obtain ⟨hg, -⟩ := Textual.decoded_of_graph hgraph
    exact ⟨hg.tidy.imp fun _ hop ↦ hop.1, hg.edges_eq⟩

/-- The binary form of a graph from a file of either form is read as the graph itself, if its record
is read as it was written. It always is if no text and no list of inputs is too long for four
bytes. -/
theorem binary_decode_encode
    (hread : Binary.decode bytes = .ok g ∨ Textual.decode bytes = .ok g) :
    ((MessagePack.ofBytes? (Binary.encode g)).bind Binary.GraphRecord.ofValue?
        = some (Binary.GraphRecord.ofGraph g) → Binary.decode (Binary.encode g) = .ok g) ∧
      (g.Compact → Binary.decode (Binary.encode g) = .ok g) := by
  have hg := decoded_of_decode hread
  have hback : (MessagePack.ofBytes? (Binary.encode g)).bind Binary.GraphRecord.ofValue?
      = some (Binary.GraphRecord.ofGraph g) → Binary.decode (Binary.encode g) = .ok g := by
    intro hpack
    rw [Binary.decode, hpack]
    exact (Binary.graph_ofGraph hg.tidy).trans (congrArg _ (Graph.restored_eq_self hg.edges_eq))
  exact ⟨hback, fun hsize ↦ hback (Binary.ofValue?_encode hg.tidy hsize)⟩

theorem binary_decode_encode_sampleFork :
    Binary.decode (Binary.encode (sampleFork 1 2)) = .ok (sampleFork 1 2) := by
  have hpack : (MessagePack.ofBytes? (Binary.encode (sampleFork 1 2))).bind
      Binary.GraphRecord.ofValue? = some (Binary.GraphRecord.ofGraph (sampleFork 1 2)) := by
    rw [MessagePack.ofBytes?, toList_eq_data]
    decide +kernel
  exact (binary_decode_encode (Or.inr Pipeline.decode_forkText)).1 hpack

/-- The entries of a graph with textual names are read as the graph with the normal form of its
name. -/
theorem graph_ofGraph_of_decoded (hg : Decoded Operation.Storable g) :
    (Textual.GraphEntry.ofGraph g).graph
      = .ok { g with name := (Textual.normalName (Textual.textOf g.name)).toUTF8 } := by
  rw [Textual.graph_ofGraph hg.tidy, Graph.restored_eq_self hg.edges_eq]

/-- The textual form of a graph from a textual file is read as the graph itself, if its entries are
read as they were written and normal forms keep their name: taking the normal form of the name once
more changes nothing and leaves no white space at its ends. In any case nothing but the name can
change, and it is brought into normal form once more. -/
theorem textual_decode_encode (hread : Textual.decode bytes = .ok g)
    (htoml : Textual.GraphEntry.ofBytes (Textual.encode g) = .ok (Textual.GraphEntry.ofGraph g)) :
    ((∀ s, Text.trim s = s → g.name = (Text.normal s).toUTF8 →
        Text.normal (Text.normal s) = Text.normal s ∧ Text.trim (Text.normal s) = Text.normal s) →
      Textual.decode (Textual.encode g) = .ok g) ∧
    ∃ name, g.name = (Textual.normalName name).toUTF8 ∧
      Textual.decode (Textual.encode g)
        = .ok { g with name := (Textual.normalName (Textual.normalName name)).toUTF8 } := by
  obtain ⟨entry, -, hgraph⟩ := exists_of_bind_ok hread
  obtain ⟨hg, hname⟩ := Textual.decoded_of_graph hgraph
  have hback : Textual.decode (Textual.encode g)
      = .ok { g with name := (Textual.normalName (Textual.normalName entry.name)).toUTF8 } := by
    rw [Textual.decode, htoml, ok_bind, graph_ofGraph_of_decoded hg, hname, Textual.textOf_toUTF8]
  refine ⟨fun hnormal ↦ ?_, entry.name, hname, hback⟩
  obtain ⟨hsame, htrim⟩ := hnormal (Text.trim entry.name) (Text.trim_trim _) hname
  have hfix : Textual.normalName (Textual.normalName entry.name) =
      Textual.normalName entry.name := by
    rw [Textual.normalName, Textual.normalName, htrim, hsame]
  rw [hback, hfix, ← hname]

theorem textual_decode_encode_sampleFork :
    Textual.decode (Textual.encode (sampleFork 1 2)) = .ok (sampleFork 1 2) := by
  have htoml : Textual.GraphEntry.ofBytes (Textual.encode (sampleFork 1 2))
      = .ok (Textual.GraphEntry.ofGraph (sampleFork 1 2)) := by
    rw [Textual.GraphEntry.ofBytes, Toml.Document.ofBytes?, Toml.characters?, toList_eq_data]
    decide +kernel
  refine (textual_decode_encode Pipeline.decode_forkText htoml).1 fun s _ hname ↦ ?_
  have hempty : Text.normal s = "" := by
    rw [← Textual.textOf_toUTF8 (Text.normal s), ← hname]
    rfl
  rw [hempty]
  decide

/-- A block with an operation of a given name. -/
def sampleMark (m : String) : Graph :=
  (Graph.ofBlocks [(.entry, [.pure m.toUTF8 [], .ret []])]).toOption.getD (.empty .empty)

/-- A graph from a binary file is read back from its textual form exactly if all names of operations
are textual ones and the name of the graph is a text in normal form, provided that entries are read
as they were written. If only the name of the graph is not in normal form, only that changes. -/
theorem textual_decode_encode_iff (hread : Binary.decode bytes = .ok g)
    (htoml : Textual.GraphEntry.ofBytes (Textual.encode g) = .ok (Textual.GraphEntry.ofGraph g)) :
    (Textual.decode (Textual.encode g) = .ok g ↔
      (∀ (i : OpIndex) (op : Operation), g.ops[i]? = some op → op.Named) ∧
        ∃ s, Textual.normalName s = s ∧ g.name = s.toUTF8) ∧
    ((∀ (i : OpIndex) (op : Operation), g.ops[i]? = some op → op.Named) →
      Textual.decode (Textual.encode g)
        = .ok { g with name := (Textual.normalName (Textual.textOf g.name)).toUTF8 }) := by
  have hrec := decoded_of_decode (Or.inl hread)
  have hback : (∀ (i : OpIndex) (op : Operation), g.ops[i]? = some op → op.Named) →
      Textual.decode (Textual.encode g)
        = .ok { g with name := (Textual.normalName (Textual.textOf g.name)).toUTF8 } := by
    intro hnamed
    have hg : Decoded Operation.Storable g :=
      ⟨{ hrec.tidy with op := fun hop ↦ ⟨hrec.tidy.op hop, hnamed _ _ hop⟩ }, hrec.edges_eq⟩
    rw [Textual.decode, htoml, ok_bind, graph_ofGraph_of_decoded hg]
  refine ⟨⟨fun hsame ↦ ?_, ?_⟩, hback⟩
  · obtain ⟨entry, hentry, hgraph⟩ := exists_of_bind_ok hsame
    cases htoml.symm.trans hentry
    obtain ⟨hg, hname⟩ := Textual.decoded_of_graph hgraph
    have hfix : Textual.textOf g.name = Textual.normalName (Textual.textOf g.name) :=
      (congrArg Textual.textOf hname).trans (Textual.textOf_toUTF8 _)
    exact ⟨fun i op hop ↦ (hg.tidy.op hop).2, _, congrArg Textual.normalName hfix.symm, hname⟩
  · rintro ⟨hnamed, s, hs, hname⟩
    rw [hback hnamed, hname, Textual.textOf_toUTF8, hs, ← hname]

theorem encode_sampleMark :
    (∀ m ∈ ["x", "Dead"], Binary.decode (Binary.encode (sampleMark m)) = .ok (sampleMark m) ∧
      Textual.GraphEntry.ofBytes (Textual.encode (sampleMark m))
        = .ok (Textual.GraphEntry.ofGraph (sampleMark m))) ∧
    (Textual.GraphEntry.ofGraph (sampleMark "Dead")).graph
      = .ok { sampleMark "Dead" with ops := #[.dead, .ret []] } := by
  simp only [Binary.decode, MessagePack.ofBytes?, Textual.GraphEntry.ofBytes,
    Toml.Document.ofBytes?, Toml.characters?, toList_eq_data]
  decide +kernel

theorem textual_decode_encode_sampleMark :
    Textual.decode (Textual.encode (sampleMark "x")) = .ok (sampleMark "x") := by
  obtain ⟨hread, htoml⟩ := encode_sampleMark.1 "x" (by decide)
  have hops : (sampleMark "x").ops = #[.pure "x".toUTF8 [], .ret []] := by decide
  refine (textual_decode_encode_iff hread htoml).1.mpr ⟨fun i op hop ↦ ?_, "", by decide, rfl⟩
  rw [hops] at hop
  rcases i with _ | _ | i
  · cases hop
    exact ⟨"x", rfl, by decide, by decide, by decide +kernel⟩
  · cases hop
    trivial
  · cases hop

/-- An operation called `Dead` is a dead one when it comes back from the textual form. -/
theorem exists_textual_decode_encode_ne :
    ∃ bytes g back, Binary.decode bytes = .ok g ∧ g.name = "".toUTF8 ∧
      g.ops = #[.pure "Dead".toUTF8 [], .ret []] ∧
      Textual.decode (Textual.encode g) = .ok back ∧ back.ops = #[.dead, .ret []] ∧ back ≠ g := by
  obtain ⟨hread, htoml⟩ := encode_sampleMark.1 "Dead" (by decide)
  refine ⟨_, _, { sampleMark "Dead" with ops := #[.dead, .ret []] }, hread, rfl, by decide, ?_, rfl,
    by decide⟩
  rw [Textual.decode, htoml]
  exact encode_sampleMark.2

end Flowgraph.GraphFile
