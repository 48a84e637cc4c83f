import Flowgraph.Proofs.GraphFile.Storable
import Flowgraph.Proofs.Rebuild.Copy

/-!
# Rebuilt graphs are tidy

Whatever is rebuilt through whatever analysis, the blocks of the copy are filled one after the
other, and at the end they are renumbered in that order. So a rebuilt graph has its operations block
after block and its edges in the order of the operations, and it can be written to a file as well as
its source. `Filled` is what every step of rebuilding keeps; nothing is said about whether the steps
succeed.
-/

namespace Flowgraph

private theorem Operation.RenamedTo.bare_eq {β : BlockIndex → Option BlockIndex}
    {ω : OpIndex → Option OpIndex} {op op' : Operation} (h : op.RenamedTo β ω op') :
    op'.action.bare = op.action.bare := by
  rcases h.action_cases with
    ⟨t, c, haction, -, haction'⟩ | ⟨t, f, c, d, hint, haction, -, -, haction'⟩ | ⟨heq, -⟩
  · rw [haction, haction']
    rfl
  · rw [haction, haction']
    rfl
  · rw [heq]

/-- The copy has at least `n` blocks and is filled block by block with operations that have a
property. -/
structure Filled (P : Operation → Prop) (g : Graph) (n : Nat) (a : Assembler) : Prop where
  source_eq : a.source = g
  name_eq : a.output.name = g.name
  count_le : n ≤ a.output.blockCount
  filled : a.output.FilledBy a.filled.toList
  kind : ∀ {c : BlockIndex} {blk : Block}, a.output.blocks[c]? = some blk →
    ∀ k, blk.kind ≠ .reserved k
  op : ∀ {v : OpIndex} {op : Operation}, a.output.ops[v]? = some op → P op
  waiting : ∀ {v i : OpIndex}, (v, i) ∈ a.waiting.toList →
    ∃ op, a.output.ops[v]? = some op ∧ op.isPhi = true

variable {P : Operation → Prop} {g g' : Graph} {n : Nat} {a a' : Assembler}

private theorem filled_start (P : Operation → Prop) (g : Graph) : Filled P g 0 (.start g) :=
  ⟨rfl, rfl, Nat.zero_le _, Graph.filledBy_empty g.name, nofun, nofun, nofun⟩

namespace Filled

variable (hg : g.Tidy P) (hP : Operation.Lasting P) (h : Filled P g n a)

include h

private theorem withValue (i : OpIndex) (v : Option OpIndex) : Filled P g n (a.withValue i v) :=
  { h with }

theorem emit {op : Operation} (hop : P op) {v : OpIndex} (hy : Yields (Build.emit op) a v a') :
    Filled P g n a' ∧ a'.output.ops[v]? = some op := by
  obtain ⟨c, -, hadd, rfl, rfl⟩ := Build.yields_emit hy
  exact ⟨{
    source_eq := h.source_eq
    name_eq := h.name_eq
    count_le := by
      rw [Graph.appended_blockCount]
      exact h.count_le
    filled := h.filled.addOperation hadd
    kind := by
      intro d blk hblk
      rw [Graph.appended, Array.getElem?_modify] at hblk
      split at hblk
      · obtain ⟨blk₀, hblk₀, rfl⟩ := Option.map_eq_some_iff.mp hblk
        have hkind := h.kind hblk₀
        exact hkind
      · exact h.kind hblk
    op := by
      intro w op' hop'
      rw [Graph.appended, Array.getElem?_push] at hop'
      split at hop'
      · cases hop'
        exact hop
      · exact h.op hop'
    waiting := by
      intro w i hmem
      obtain ⟨op', hop', hphi⟩ := h.waiting hmem
      refine ⟨op', ?_, hphi⟩
      rw [Graph.appended_op_of_lt (Graph.lt_opCount hop')]
      exact hop' },
    Graph.appended_op_self⟩

include hg

theorem withCopy {b : BlockIndex} {blk : Block} (hblk : a.source.blocks[b]? = some blk)
    (hlt : a.output.blockCount < noHandle) : Filled P g (n + 1) (a.withCopy b blk) := by
  rw [h.source_eq] at hblk
  refine {
    source_eq := h.source_eq
    name_eq := h.name_eq
    count_le := ?_
    filled := h.filled.addBlock (Assembler.addBlock_eq_withCopy hlt)
    kind := ?_
    op := h.op
    waiting := h.waiting }
  · rw [Assembler.withCopy, Graph.blockCount, Array.size_push]
    exact Nat.succ_le_succ h.count_le
  · intro d blk' hblk'
    rw [Assembler.withCopy, Array.getElem?_push] at hblk'
    split at hblk'
    · cases hblk'
      have hkind := hg.kind hblk
      exact hkind
    · exact h.kind hblk'

theorem mapBlock {b c : BlockIndex} (hy : Yields (Build.mapBlock b) a c a') :
    Filled P g n a' := by
  rcases Build.yields_mapBlock hy with ⟨-, rfl⟩ | ⟨-, -, -, blk, hblk, hlt, rfl⟩
  · exact h
  · have h' := h.withCopy hg hblk hlt
    exact { h' with count_le := Nat.le_of_succ_le h'.count_le }

private theorem rename {op op' : Operation}
    (hy : Yields (op.rename Build.mapBlock Build.mapInput) a op' a') :
    Filled P g n a' ∧ op'.action.bare = op.action.bare ∧
      op'.inputs.length = op.inputs.length := by
  obtain ⟨h', hren⟩ := Build.renamedTo_of_rename (fun _ _ {_ _ _} h₁ hc ↦ h₁.mapBlock hg hc) h hy
  exact ⟨h', hren.bare_eq, hren.inputs.length_eq.symm⟩

include hP

theorem copyOperation {i : OpIndex} {op : Operation} (hop : g.ops[i]? = some op)
    {v : Option OpIndex} (hy : Yields (Build.copyOperation i) a v a') : Filled P g n a' := by
  rcases Build.yields_copyOperation (by rw [h.source_eq]; exact hop) hy with
    ⟨hphi, inputs, complete, w, a₁, -, hemit, -, rfl⟩ | ⟨-, op', w, a₁, hren, hemit, -⟩
  · obtain ⟨h₁, hw⟩ := h.emit (hP.inputs (hg.op hop) (Or.inl hphi)) hemit
    cases complete with
    | true => exact h₁
    | false =>
      refine { h₁ with waiting := fun {u j} hmem ↦ ?_ }
      rw [if_neg Bool.false_ne_true, Array.toList_push, List.mem_append, List.mem_singleton] at hmem
      rcases hmem with hmem | hmem
      · exact h₁.waiting hmem
      · cases hmem
        exact ⟨_, hw, hphi⟩
  · obtain ⟨h₁, haction, hlen⟩ := h.rename hg hren
    exact (h₁.emit (hP.of_bare (hg.op hop) haction (Or.inr hlen)) hemit).1

private theorem forwardPhis {i : OpIndex} {op : Operation} (hop : g.ops[i]? = some op)
    {v : Option OpIndex} (hy : Yields (Reducer.forwardPhis.operation Build.copyOperation i)
      a v a') :
    Filled P g n a' := by
  rw [Build.yields_forwardPhis (by rw [h.source_eq]; exact hop)] at hy
  cases hphi : op.isPhi with
  | false => exact h.copyOperation hg hP hop (by simpa [hphi] using hy)
  | true =>
    simp only [hphi, Bool.not_true, Bool.false_eq_true, if_false, yields_bind] at hy
    obtain ⟨⟨inputs, complete⟩, a₁, hin, hy⟩ := hy
    obtain ⟨rfl, -⟩ := Build.yields_phiInputs hin
    split at hy
    · split at hy
      · obtain ⟨-, rfl⟩ := yields_pure.mp hy
        exact h
      · exact h.copyOperation hg hP hop hy
    · exact h.copyOperation hg hP hop hy

private theorem reduceOperation {i : OpIndex} {op : Operation} (hop : g.ops[i]? = some op)
    {s : Liveness} {forwardPhis : Bool} {v : Option OpIndex}
    (hy : Yields (Build.reduceOperation (Graph.eliminators s forwardPhis) i) a v a') :
    Filled P g n a' := by
  rcases Build.yields_dropDead (by rw [h.source_eq]; exact hop) hy with
    ⟨t, c, w, a₁, -, hmap, hemit, -⟩ | ⟨-, ⟨-, hnext⟩ | ⟨-, -, -, rfl⟩⟩
  · exact ((h.mapBlock hg hmap).emit (hP.goto c) hemit).1
  · cases forwardPhis with
    | false => exact h.copyOperation hg hP hop hnext
    | true => exact h.forwardPhis hg hP hop hnext
  · exact h

private theorem copyOp {i : OpIndex} (hi : i < g.opCount) {s : Liveness} {forwardPhis : Bool}
    {u : PUnit} (hy : Yields (Build.copyOp (Graph.eliminators s forwardPhis) i) a u a') :
    Filled P g n a' := by
  obtain ⟨v, a₁, hred, rfl⟩ := Build.yields_copyOp hy
  obtain ⟨op, hop⟩ := Graph.exists_op hi
  exact (h.reduceOperation hg hP hop hred).withValue i v

private theorem copyBlock {b : BlockIndex} {s : Liveness} {forwardPhis : Bool} {u : PUnit}
    (hy : Yields (Build.copyBlock (Graph.eliminators s forwardPhis) b) a u a') :
    Filled P g n a' := by
  obtain ⟨w, a₀, hw, hcases⟩ := Build.yields_copyBlock hy
  have hw : Yields (Build.wanted b) a w a₀ := by cases forwardPhis <;> exact hw
  obtain ⟨rfl, -⟩ := Build.yields_wanted hw
  rcases hcases with ⟨-, rfl⟩ | ⟨-, c, a₁, output, hmap, hbind, hops, -⟩
  · exact h
  · have h₁ := h.mapBlock hg hmap
    have hout := Graph.bind_eq_ok hbind
    have h₂ : Filled P g n
        { a₁ with output, filled := a₁.filled.push c, current := some b } := by
      obtain ⟨-, -, rfl⟩ := hout
      have hfilled := h₁.filled.bind hbind
      rw [← Array.toList_push] at hfilled
      exact { h₁ with filled := hfilled }
    refine forM_keeps (P := Filled P g n) (fun i hi {_ _} hs hstep ↦ hs.copyOp hg hP ?_ hstep)
      h₂ hops
    rw [h₁.source_eq] at hi
    exact hg.sound.lt_of_mem_span hi

omit hg in
private theorem completePhi {v i : OpIndex} (hmem : (v, i) ∈ a.waiting.toList) {u : PUnit}
    (hy : Yields (Build.completePhi v i) a u a') : Filled P g n a' ∧ a'.waiting = a.waiting := by
  obtain ⟨inputs, -, -, hset, ha'⟩ := Build.yields_completePhi hy
  have halike := Graph.setInputs_alike hset
  have hout := Graph.setInputs_eq_ok hset
  rw [ha']
  exact ⟨{
    source_eq := h.source_eq
    name_eq := by rw [hout]; exact h.name_eq
    count_le := by rw [halike.blockCount_eq]; exact h.count_le
    filled := h.filled.alike halike
    kind := by
      intro c blk hblk
      rw [hout] at hblk
      exact h.kind hblk
    op := by
      intro w op hop
      rcases Graph.setInputs_op_cases hset hop with ⟨-, op₀, hop₀, rfl⟩ | ⟨-, hop⟩
      · obtain ⟨op₁, hop₁, hphi⟩ := h.waiting hmem
        cases hop₀.symm.trans hop₁
        exact hP.inputs (h.op hop₀) (Or.inl hphi)
      · exact h.op hop
    waiting := by
      intro w j hw
      obtain ⟨op₀, hop₀, hphi⟩ := h.waiting hw
      have haction := halike.actions w
      rw [hop₀, Option.map_some] at haction
      obtain ⟨op, hop, heq⟩ := Option.map_eq_some_iff.mp haction
      exact ⟨op, hop, by rw [Operation.isPhi, heq]; exact hphi⟩ }, rfl⟩

end Filled

/-! ## The whole copy -/

/-- A rebuilt graph can be written to the files that its source can be written to, and its edges
are those that a reader of such a file would find. -/
theorem tidy_of_rebuild (hg : g.Tidy P) (hP : Operation.Lasting P) {s : Liveness}
    {forwardPhis : Bool} (h : g.rebuild (Graph.eliminators s forwardPhis) = .ok g') :
    g'.Tidy P ∧ g'.edges.toList = g'.recordedEdges ∧ g'.name = g.name := by
  obtain ⟨c, a₁, a₂, a', hmap, hcopy, hphis, hre⟩ := Build.yields_of_rebuild hg.pos h
  have h₁ : Filled P g 1 a₁ := by
    rcases Build.yields_mapBlock hmap with ⟨hc, -⟩ | ⟨-, -, -, blk, hblk, hlt, rfl⟩
    · rw [Assembler.copy?_start] at hc
      cases hc
    · exact (filled_start P g).withCopy hg hblk hlt
  have h₂ : Filled P g 1 a₂ :=
    forM_keeps (fun b _ {_ _} hs hstep ↦ hs.copyBlock hg hP hstep) h₁ hcopy
  have h' : Filled P g 1 a' ∧ a'.waiting = a₂.waiting := by
    refine forM_keeps (P := fun a ↦ Filled P g 1 a ∧ a.waiting = a₂.waiting)
      (fun e he {a _} hs hstep ↦ ?_) ⟨h₂, rfl⟩ hphis
    obtain ⟨h₃, hsame⟩ := hs.1.completePhi hP (by rw [hs.2]; exact he) hstep
    exact ⟨h₃, hsame.trans hs.2⟩
  have hdem := demoted_demoteMerges a'.output
  have hfilled := h'.1.filled.alike hdem.alike
  obtain ⟨hbound, hperm, -⟩ := Graph.of_reorder_ok hfilled.sound hre
  refine ⟨Graph.tidy_of_reorder hP hfilled.sound ?_ ?_ ?_ ?_ hre, hfilled.reorder hre, ?_⟩
  · rw [hdem.alike.blockCount_eq]
    exact h'.1.count_le
  · intro b blk hblk
    have hmem := hperm.mem_iff.mpr (List.mem_range.mpr (Graph.lt_blockCount hblk))
    exact hfilled.isSome_span hbound hmem hblk
  · intro b blk hblk
    obtain ⟨blk₀, hblk₀, -, -, hkind | ⟨-, hkind, -⟩⟩ := hdem.block hblk
    · rw [hkind]
      exact h'.1.kind hblk₀
    · rw [hkind]
      simp
  · intro i op hop
    rw [hdem.ops_eq] at hop
    exact h'.1.op hop
  · rw [(Graph.reorder_renamed hfilled.sound hre).name_eq, hdem.name_eq]
    exact h'.1.name_eq

end Flowgraph
