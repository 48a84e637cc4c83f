import Flowgraph.Cache.Store
import Flowgraph.GraphFile.Storage
import Flowgraph.Proofs.GraphFile.Distinct
import Flowgraph.Proofs.GraphFile.RoundTrip
import Flowgraph.Proofs.Files.Places

/-!
# Stored results are restored

A stored result holds the binary form of its graph, and a reader of that form adds the edges in the
order of the operations. A run that eliminates leaves its edges in this very order, so its graph
comes back as it is, and so does all that a result says about it. What does not come back are the
stages that ran.

The graph of a file follows from the bytes of the file, whatever its form, except that a graph
without a name takes that of its file.
-/

namespace Flowgraph

open Files (Tree)

namespace GraphFile

variable {t t' : Tree} {path path' : String} {g g' : Graph} {bytes : ByteArray}

/-- A loaded graph is the one in its file, which takes the name of the file if it has none. -/
theorem exists_of_load (h : load t path = .ok (g, bytes)) : ∃ (f : GraphFormat) (inside : Graph),
    t.read path = .ok bytes ∧ f.decode bytes = .ok inside ∧
      g = if inside.name.isEmpty then { inside with name := (stem path).toUTF8 } else inside := by
  obtain ⟨f, -, h⟩ := exists_of_bind_ok h
  obtain ⟨bytes', hread, h⟩ := exists_of_bind_ok h
  obtain ⟨inside, hdecode, h⟩ := exists_of_bind_ok h
  cases h
  exact ⟨f, inside, mapError_eq_ok hread, mapError_eq_ok hdecode, rfl⟩

/-- The bytes of a file and the name of its graph determine the graph. -/
theorem load_inj (h : load t path = .ok (g, bytes)) (h' : load t' path' = .ok (g', bytes))
    (hname : g.name = g'.name) : g = g' := by
  obtain ⟨f, inside, -, hdecode, rfl⟩ := exists_of_load h
  obtain ⟨f', inside', -, hdecode', rfl⟩ := exists_of_load h'
  obtain ⟨-, rfl⟩ := GraphFormat.decode_inj hdecode hdecode'
  by_cases hempty : inside.name.isEmpty = true
  · rw [if_pos hempty, if_pos hempty] at hname ⊢
    rw [show (stem path).toUTF8 = (stem path').toUTF8 from hname]
  · rw [if_neg hempty, if_neg hempty]

/-- What is known of a loaded graph. -/
theorem decoded_of_load (h : load t path = .ok (g, bytes)) : Decoded Operation.Recordable g := by
  obtain ⟨f, inside, -, hdecode, rfl⟩ := exists_of_load h
  have hinside : Decoded Operation.Recordable inside := by
    cases f with
    | text => exact decoded_of_decode (Or.inr (mapError_eq_ok hdecode))
    | binary => exact decoded_of_decode (Or.inl (mapError_eq_ok hdecode))
  split
  · exact ⟨hinside.tidy.rename _, hinside.edges_eq⟩
  · exact hinside

end GraphFile

namespace Cache

open MessagePack (Plain)
open Pipeline (Result)

variable {r r' : Result}

/-- The record of a result and that of its graph are read as they were written. -/
structure Payload.Kept (r : Result) : Prop where
  payload : decode? (ofResult r).encode = some (ofResult r)
  graph : (MessagePack.ofBytes? (Binary.encode r.graph)).bind Binary.GraphRecord.ofValue?
    = some (Binary.GraphRecord.ofGraph r.graph)

namespace Payload

private theorem ofResult_congr (h : r.findings = r'.findings) : ofResult r = ofResult r' := by
  obtain ⟨graph, order, loops, stats, stages⟩ := r
  obtain ⟨graph', order', loops', stats', stages'⟩ := r'
  cases h
  rfl

theorem Kept.congr (hkept : Kept r) (h : r'.findings = r.findings) : Kept r' := by
  have hgraph : r'.graph = r.graph := congrArg Pipeline.Findings.graph h
  refine ⟨?_, ?_⟩
  · rw [ofResult_congr h]
    exact hkept.payload
  · rw [hgraph]
    exact hkept.graph

theorem checkBlocks_eq_ok {count : Nat} {l l' : Option (List Nat)}
    (h : checkBlocks count l = .ok l') : l' = l := by
  rw [checkBlocks] at h
  split at h
  · cases h
  · cases h
    rfl

private theorem restoreLoop_eq_ok {count : Nat} {l : LoopRecord} {l' : Pipeline.LoopSummary}
    (h : restoreLoop count l = .ok l') : l' = ⟨l.header, l.members, l.parent, l.depth⟩ := by
  obtain ⟨members, hmembers, h⟩ := exists_of_bind_ok h
  rw [checkBlocks_eq_ok hmembers] at h
  split at h
  · cases h
  · cases h
    rfl

private theorem mapM_restoreLoop_eq_ok {count : Nat} : ∀ {l l' : List Pipeline.LoopSummary},
    (l.map fun s ↦ (⟨s.header, s.members, s.parent, s.depth⟩ : LoopRecord)).mapM (restoreLoop count)
      = .ok l' → l' = l
  | [], l', h => by
    cases h
    rfl
  | s :: l, l', h => by
    rw [List.map_cons, List.mapM_cons] at h
    obtain ⟨s', hs', h⟩ := exists_of_bind_ok h
    obtain ⟨rest, hrest, h⟩ := exists_of_bind_ok h
    cases h
    rw [restoreLoop_eq_ok hs', mapM_restoreLoop_eq_ok hrest]

private theorem items_ofResult (r : Result) : ((ofResult r).loops.getD .empty).items
    = r.loops.map fun s ↦ (⟨s.header, s.members, s.parent, s.depth⟩ : LoopRecord) := by
  rw [ofResult]
  dsimp only
  split
  · rename_i hempty
    rw [List.isEmpty_iff.mp hempty]
    rfl
  · rfl

/-- Counters of one byte are plain. -/
theorem plain_statsValue {s : Pipeline.Stats}
    (h : ∀ c ∈ Pipeline.Stats.counters, ∃ n : Nat, n < 0x80 ∧ c.get s = n) :
    Plain (statsValue s) := by
  refine MessagePack.plain_record (by simp [Pipeline.Stats.counters]) ?_ ?_
  · simp only [List.forall_mem_append, List.forall_mem_map, List.forall_mem_singleton]
    decide
  · simp only [List.forall_mem_append, List.forall_mem_map, List.forall_mem_singleton]
    refine ⟨fun c hc ↦ ?_, .bool _⟩
    obtain ⟨n, hn, hget⟩ := h c hc
    rw [hget]
    exact .int hn

theorem plain_blocksValue {l : List Nat} (h : l.length < 2 ^ 32) :
    Plain (blocksValue (some l)) := by
  refine .array (by rwa [List.length_map]) ?_
  rw [List.forall_mem_map]
  exact fun _ _ ↦ .word32 _

/-- A result that is restored says what the stored one said. -/
theorem findings_of_result (hr : Decoded Operation.Recordable r.graph) (hkept : Kept r)
    (h : (ofResult r).result = .ok r') : r'.findings = r.findings := by
  obtain ⟨graph, hgraph, h⟩ := exists_of_bind_ok h
  obtain ⟨count, -, h⟩ := exists_of_bind_ok h
  obtain ⟨order, horder, h⟩ := exists_of_bind_ok h
  obtain ⟨loops, hloops, h⟩ := exists_of_bind_ok h
  cases h
  have hback : Binary.decode (Binary.encode r.graph) = .ok r.graph := by
    rw [Binary.decode, hkept.graph]
    exact (Binary.graph_ofGraph hr.tidy).trans (congrArg _ (Graph.restored_eq_self hr.edges_eq))
  cases (mapError_eq_ok hgraph).symm.trans hback
  rw [items_ofResult] at hloops
  rw [checkBlocks_eq_ok horder, mapM_restoreLoop_eq_ok hloops]
  rfl

end Payload

/-! ## Entries

An entry is what a path of the store leads to. Looking a key up reads the entry of this key and
nothing else. -/

namespace Store

/-- What stands where the result with a key is stored. -/
def entryAt (s : Store) (t : Tree) (key : ByteArray) : Option Files.Entry :=
  t.get? (t.placeOf (s.pathOf key))

variable {s : Store} {t : Tree} {key : ByteArray}

/-- A record is looked up in the file that is its entry. -/
theorem exists_entry_of_lookup {p : Payload} (h : s.lookup t key = .ok p)
    (hp : p.isCurrent = true) : ∃ bytes,
      s.entryAt t key = some (.file bytes) ∧ Payload.decode? bytes = some p := by
  rw [lookup] at h
  split at h
  · rename_i bytes hread
    refine ⟨bytes, (Files.Tree.read_eq_ok_iff.mp hread).2, ?_⟩
    split at h
    · rename_i p' hp'
      cases h
      exact hp'
    · cases h
  · split at h
    · cases h
      cases hp
    · cases h

end Store

end Cache

end Flowgraph
