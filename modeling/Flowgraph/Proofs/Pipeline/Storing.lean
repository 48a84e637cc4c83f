import Flowgraph.Proofs.GraphFile.Binary
import Flowgraph.Proofs.GraphFile.Decoded
import Flowgraph.Proofs.GraphFile.Textual
import Flowgraph.Proofs.Pipeline.Completion
import Flowgraph.Proofs.Rebuild.Filled
import Flowgraph.Proofs.Toml.Characters

/-!
# Results that are written and read back

A graph that was read from a file is tidy, and every stage of a run keeps it tidy. So the graph that
a run comes to can be written in both forms, and reading brings back its blocks and operations.

## Predecessors

Neither form holds edges. A reader adds them in the order of the operations, which lists the
predecessors of every block in ascending order. Elimination fills its graph in this very order, and
what was not renumbered still has it. Renumbering alone moves the blocks and leaves the edges in
their places: then a reader finds the predecessors in another order, while the inputs of a phi stay
as they were. `choices_of_decode_encode` has a merge of two blocks that trade their values.
-/

namespace Flowgraph

/-- The predecessors of a block, each with the value that a phi of the block takes for it. -/
def Graph.choices (g : Graph) (b : BlockIndex) (phi : Operation) : List (BlockIndex × OpIndex) :=
  (g.predecessors b).zip phi.inputs

namespace Pipeline

variable {P : Operation → Prop} {cfg : Settings} {g g' : Graph}

private theorem tidy_of_ordering (hP : Operation.Lasting P) (hg : g.Tidy P)
    {order : Option (List BlockIndex)} {loops : List LoopSummary}
    (h : ordering cfg g = .ok (g', order, loops)) :
    g'.Tidy P ∧ g'.name = g.name ∧ (cfg.specialRpo = false → g' = g) := by
  rw [ordering] at h
  split at h
  · rename_i hcfg
    obtain ⟨num, -, h⟩ := exists_of_bind_ok h
    obtain ⟨g₁, hre, h⟩ := exists_of_bind_ok h
    cases h
    exact ⟨hg.reorder hP hre, (Graph.reorder_renamed hg.sound hre).name_eq, by simp [hcfg]⟩
  · cases h
    exact ⟨hg, rfl, fun _ ↦ rfl⟩

private theorem tidy_of_eliminating (hP : Operation.Lasting P) (hg : g.Tidy P) {rewritten : Nat}
    {leaf : Bool} (h : eliminating cfg g = .ok (g', rewritten, leaf)) :
    g'.Tidy P ∧ g'.name = g.name ∧
      (if cfg.eliminateDeadCode then g'.edges.toList = g'.recordedEdges else g' = g) := by
  rw [eliminating] at h
  split at h
  · rename_i hcfg
    obtain ⟨⟨out, s⟩, helim, h⟩ := exists_of_bind_ok h
    obtain ⟨s', -, helim⟩ := exists_of_bind_ok (mapError_eq_ok helim)
    obtain ⟨out', hre, helim⟩ := exists_of_bind_ok helim
    cases helim
    replace h := of_when h
    cases h
    obtain ⟨htidy, hedges, hname⟩ := tidy_of_rebuild hg hP hre
    exact ⟨htidy, hname, by rw [if_pos hcfg]; exact hedges⟩
  · rename_i hcfg
    cases h
    exact ⟨hg, rfl, by rw [if_neg hcfg]⟩

/-- A run takes a tidy graph to a tidy graph of the same name, and the edges are in the order of the
operations if elimination puts them there or if they were and nothing is renumbered. -/
theorem tidy_of_findings (hP : Operation.Lasting P) (hg : g.Tidy P) {x : Findings}
    (h : findings cfg g = .ok x) : x.graph.Tidy P ∧ x.graph.name = g.name ∧
      (cfg.eliminateDeadCode = true ∨ cfg.specialRpo = false ∧ g.edges.toList = g.recordedEdges →
        x.graph.edges.toList = x.graph.recordedEdges) := by
  obtain ⟨ordered, order, loops, rewritten, leaf, horder, helim⟩ := exists_of_findings h
  obtain ⟨hordered, hname, hsame⟩ := tidy_of_ordering hP hg horder
  have hflag := flagged_deferring cfg ordered
  obtain ⟨hout, hname', hedges⟩ := tidy_of_eliminating hP (hordered.flagged hflag) helim
  refine ⟨hout, (hname'.trans hflag.name_eq).trans hname, fun hcases ↦ ?_⟩
  cases hcfg : cfg.eliminateDeadCode with
  | true => simpa [hcfg] using hedges
  | false =>
    obtain ⟨hrpo, hrec⟩ := hcases.resolve_left (by simp [hcfg])
    have heq : x.graph = deferring cfg ordered := by simpa [hcfg] using hedges
    have halike := hflag.alike
    rw [hsame hrpo] at heq halike
    rw [heq, halike.edges, halike.recordedEdges_eq]
    exact hrec

private theorem canceled_eq_false_of_run {c : Context} (hverify : c.settings.verify = true)
    {recorder : Trace.Recorder} {r : Result} (hrun : (run c recorder (some g)).1 = .ok r) :
    c.canceled = false := by
  by_contra hc
  rw [Bool.not_eq_false] at hc
  have hstages : ∀ j, ((Run.stages c g).run j).1 = .error .canceled := by
    intro j
    simp only [Run.stages, Run.stagesUnless, hverify, if_true, Run.verifyStage, Run.stage,
      Context.before, hc]
    rfl
  cases (hstages _).symm.trans hrun

private theorem decode_encode (h : g.Tidy Operation.Storable)
    (htoml : Textual.GraphEntry.ofBytes (Textual.encode g) = .ok (Textual.GraphEntry.ofGraph g))
    (hpack : (MessagePack.ofBytes? (Binary.encode g)).bind Binary.GraphRecord.ofValue?
      = some (Binary.GraphRecord.ofGraph g)) :
    Binary.decode (Binary.encode g) = .ok g.restored ∧ Textual.decode (Textual.encode g)
      = .ok { g.restored with name := (Textual.normalName (Textual.textOf g.name)).toUTF8 } := by
  constructor
  · rw [Binary.decode, hpack]
    exact Binary.graph_ofGraph (h.imp fun _ hop ↦ hop.1)
  · rw [Textual.decode, htoml]
    exact Textual.graph_ofGraph h

/-- The graph that a run comes to for a textual file can be written in both forms and read back, if
the writers and readers of the two forms bring records back as they are. What is read has the
blocks and operations of the graph and the predecessors of every block in ascending order; the
textual form takes the normal form of the name once more. It is the graph itself, with the same
choices of all phis, if elimination was on or renumbering off. -/
theorem decode_encode_of_run {bytes : ByteArray} {g : Graph}
    (hread : Textual.decode bytes = .ok g) {c : Context} (hverify : c.settings.verify = true)
    {recorder : Trace.Recorder} {r : Result} (hrun : (run c recorder (some g)).1 = .ok r)
    (htoml : Textual.GraphEntry.ofBytes (Textual.encode r.graph)
      = .ok (Textual.GraphEntry.ofGraph r.graph))
    (hpack : (MessagePack.ofBytes? (Binary.encode r.graph)).bind Binary.GraphRecord.ofValue?
      = some (Binary.GraphRecord.ofGraph r.graph)) :
    ∃ name back, r.graph.name = (Textual.normalName name).toUTF8 ∧
      Binary.decode (Binary.encode r.graph) = .ok back ∧
      Textual.decode (Textual.encode r.graph)
        = .ok { back with name := (Textual.normalName (Textual.normalName name)).toUTF8 } ∧
      back.name = r.graph.name ∧ back.blocks = r.graph.blocks ∧ back.ops = r.graph.ops ∧
      back.owners = r.graph.owners ∧
      (∀ b, back.predecessors b = (r.graph.predecessors b).mergeSort (· ≤ ·)) ∧
      (∀ b phi, (r.graph.predecessors b).Pairwise (· ≤ ·) →
        back.choices b phi = r.graph.choices b phi) ∧
      (c.settings.eliminateDeadCode = true ∨ c.settings.specialRpo = false → back = r.graph) := by
  obtain ⟨entry, -, hgraph⟩ := exists_of_bind_ok hread
  obtain ⟨hdecoded, hname⟩ := Textual.decoded_of_graph hgraph
  have hfind := (exists_run_iff (canceled_eq_false_of_run hverify hrun) recorder).mp ⟨r, hrun, rfl⟩
  obtain ⟨(htidy : r.graph.Tidy Operation.Storable), (hsame : r.graph.name = g.name), hedges⟩ :=
    tidy_of_findings Operation.lasting_storable hdecoded.tidy hfind
  rw [hname] at hsame
  obtain ⟨hbinary, htextual⟩ := decode_encode htidy htoml hpack
  have hpreds := fun b ↦ Graph.predecessors_restored htidy.sound htidy.laid htidy.bound_eq b
  refine ⟨entry.name, _, hsame, hbinary, ?_, rfl, rfl, rfl, rfl, hpreds, fun b phi hsorted ↦ ?_,
    fun hcfg ↦ ?_⟩
  · rw [htextual, hsame, Textual.textOf_toUTF8]
  · rw [Graph.choices, hpreds, List.mergeSort_eq_self _ hsorted]
    rfl
  · exact Graph.restored_eq_self (hedges (hcfg.imp_right fun hrpo ↦ ⟨hrpo, hdecoded.edges_eq⟩))

/-! ## A merge that trades its values -/

deriving instance DecidableEq for Textual.OpEntry, Textual.BlockEntry, Textual.GraphEntry

/-- A fork to two blocks, `ifTrue` and `ifFalse`, and a merge with a value for each. -/
def forkBlocks (ifTrue ifFalse : BlockIndex) : List (BlockKind × List Operation) :=
  [(.entry, [.pure "x".toUTF8 [], .branch 0 ifTrue ifFalse .unhinted]),
    (.plain, [.goto 3]), (.plain, [.goto 3]), (.merge, [⟨.phi .unspecified, [0, 1]⟩, .ret []])]

def sampleFork (ifTrue ifFalse : BlockIndex) : Graph :=
  (Graph.ofBlocks (forkBlocks ifTrue ifFalse)).toOption.getD (.empty .empty)

/-- A file with the fork to blocks 1 and 2. -/
def forkText : String := "[[block]]
kind = \"entry\"
[[block.op]]
op = \"x\"
[[block.op]]
op = \"branch\"
args = [\"v0\"]
then = \"b1\"
else = \"b2\"
[[block]]
kind = \"plain\"
[[block.op]]
op = \"goto\"
target = \"b3\"
[[block]]
kind = \"plain\"
[[block.op]]
op = \"goto\"
target = \"b3\"
[[block]]
kind = \"merge\"
[[block.op]]
op = \"phi\"
args = [\"v0\", \"v1\"]
[[block.op]]
op = \"return\"
"

set_option maxRecDepth 2000 in
theorem decode_forkText : Textual.decode forkText.toUTF8 = .ok (sampleFork 1 2) := by
  have hchars : Toml.characters? forkText.toUTF8 = some _ :=
    Toml.characters?_ofList (by decide)
  rw [Textual.decode, Textual.GraphEntry.ofBytes, Toml.Document.ofBytes?, hchars]
  decide +kernel

/-- A run that renumbers and does not eliminate. -/
def Context.unreduced : Context :=
  { Context.plain with settings := { Settings.default with eliminateDeadCode := false } }

/-- The fork to blocks 1 and 2 after its renumbering: the fork to blocks 2 and 1, with the edges in
the old order. -/
def renumberedFork : Graph :=
  { sampleFork 2 1 with edges := #[⟨0, 2⟩, ⟨0, 1⟩, ⟨2, 3⟩, ⟨1, 3⟩] }

/-- The renumbered fork is what a run finds. It is written and read, but for its edges in the old
order. -/
theorem renumberedFork_spec :
    (findings Context.unreduced.settings (sampleFork 1 2)).map Findings.graph
        = .ok renumberedFork ∧
      Textual.GraphEntry.ofBytes (Textual.encode renumberedFork)
        = .ok (Textual.GraphEntry.ofGraph renumberedFork) ∧
      (Textual.GraphEntry.ofGraph renumberedFork).graph = .ok renumberedFork.restored ∧
      (MessagePack.ofBytes? (Binary.encode renumberedFork)).bind Binary.GraphRecord.ofValue?
        = some (Binary.GraphRecord.ofGraph renumberedFork) := by
  rw [Textual.GraphEntry.ofBytes, Toml.Document.ofBytes?, Toml.characters?, toList_eq_data,
    MessagePack.ofBytes?, toList_eq_data]
  decide +kernel

theorem exists_run_sampleFork :
    ∃ r, (run .unreduced .start (some (sampleFork 1 2))).1 = .ok r ∧ r.graph = renumberedFork := by
  have hgraph := renumberedFork_spec.1
  cases hx : findings Context.unreduced.settings (sampleFork 1 2) with
  | error f =>
    rw [hx] at hgraph
    cases hgraph
  | ok x =>
    obtain ⟨r, hr, rfl⟩ := (exists_run_iff (c := .unreduced) rfl .start).mpr hx
    rw [hx] at hgraph
    exact ⟨r, hr, Except.ok.inj hgraph⟩

theorem decode_encode_of_run_sampleFork :
    ∃ back text, Binary.decode (Binary.encode renumberedFork) = .ok back ∧
      Textual.decode (Textual.encode renumberedFork) = .ok text ∧
      back.ops = renumberedFork.ops ∧ text.ops = renumberedFork.ops := by
  obtain ⟨r, hr, hgraph⟩ := exists_run_sampleFork
  obtain ⟨-, htoml, -, hpack⟩ := renumberedFork_spec
  rw [← hgraph] at htoml hpack ⊢
  obtain ⟨name, back, -, hbinary, htextual, -, -, hops, -⟩ :=
    decode_encode_of_run (c := .unreduced) decode_forkText rfl hr htoml hpack
  exact ⟨back, _, hbinary, htextual, hops, hops⟩

/-- Without elimination a merge takes its values for other blocks after it was written and read
back, whatever the form. -/
theorem choices_of_decode_encode :
    ∃ g r back, Textual.decode forkText.toUTF8 = .ok g ∧
      (run .unreduced .start (some g)).1 = .ok r ∧
      r.graph.ops[4]? = some ⟨.phi .unspecified, [0, 1]⟩ ∧
      Binary.decode (Binary.encode r.graph) = .ok back ∧
      Textual.decode (Textual.encode r.graph) = .ok back ∧
      ¬ (back.choices 3 ⟨.phi .unspecified, [0, 1]⟩).Perm
        (r.graph.choices 3 ⟨.phi .unspecified, [0, 1]⟩) := by
  obtain ⟨r, hr, hgraph⟩ := exists_run_sampleFork
  refine ⟨sampleFork 1 2, r, renumberedFork.restored, decode_forkText, hr, ?_⟩
  rw [hgraph]
  obtain ⟨-, htoml, hentry, hpack⟩ := renumberedFork_spec
  have hbinary : Binary.decode (Binary.encode renumberedFork) = .ok renumberedFork.restored := by
    rw [Binary.decode, hpack]
    decide
  have htextual : Textual.decode (Textual.encode renumberedFork) = .ok renumberedFork.restored := by
    rw [Textual.decode, htoml]
    exact hentry
  exact ⟨by decide, hbinary, htextual, by decide⟩

end Pipeline

end Flowgraph
