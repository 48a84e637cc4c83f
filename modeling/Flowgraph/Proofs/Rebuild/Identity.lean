import Flowgraph.Proofs.Rebuild.Idempotence

/-!
# Copying a graph

Rebuilding without reducers copies a graph. `Copied` says what the copy of a verified graph looks
like: the blocks are the same, the operations are numbered in the order of the blocks, and the edges
stand in the order of their sources. A copy has that order already, so that copying it again gives
the same graph.

## Copying as elimination

A copy is what is left of a graph when every operation is live and no jump is rewritten. The
analysis would hardly ever find that, but control states can be chosen to go with it: nothing about
rebuilding depends on how a set of live operations was found. So what was proved about elimination
holds of copying as well, once the empty stack is seen to do the same as the one that drops nothing.

## Phis

The copy of a block has the same predecessors, ordered by source, and parallel edges keep their
order. The inputs of a phi are sorted along with them.
-/

namespace Flowgraph

variable {g g' : Graph} {a a' : Assembler}

/-! ## Nothing is dropped

A state of the analysis in which every operation is live, with control states chosen to go with it.
-/

namespace Liveness

/-- Every operation is live, and no jump is rewritten. -/
def whole (g : Graph) : Liveness where
  live := Array.replicate g.opCount true
  control := Array.ofFn fun b : Fin g.blockCount ↦ g.entryControl (fun i ↦ decide (i < g.opCount)) b
  rewrites := .empty g.opCount
  leaf := true
  pending := 0
  walked := []

theorem isLive_whole (g : Graph) : (whole g).isLive = fun i ↦ decide (i < g.opCount) := by
  funext i
  rw [isLive, whole, Array.getElem?_replicate]
  split <;> simp_all

theorem rewrites_whole (i : OpIndex) : (whole g).rewrites.get? i = none := by
  have htidy : (whole g).rewrites.Tidy := IndexMap.tidy_empty g.opCount
  rw [Option.eq_none_iff_forall_ne_some]
  intro t ht
  obtain ⟨k, hk⟩ := (IndexMap.get?_eq_some htidy).mp ht
  cases hk

private theorem controlOf_whole {b : BlockIndex} (hb : b < g.blockCount) :
    (whole g).controlOf b = g.entryControl (whole g).isLive b := by
  rw [controlOf, isLive_whole, whole, Array.getElem?_ofFn, dif_pos hb, Option.getD_some]

/-- Control states that go with a graph in which everything is live. -/
theorem analysed_whole (hg : g.Sound) (hfit : g.Fit) (hord : g.InReversePostorder) :
    Analysed g (whole g) := by
  have hlive : ∀ {i}, i < g.opCount → (whole g).isLive i = true := fun hi ↦ by
    simpa [isLive_whole] using hi
  refine ⟨hg, hfit, hord, ⟨Array.size_replicate, Array.size_ofFn, IndexMap.tidy_empty _,
    Array.size_replicate⟩, fun hop _ ↦ hlive (Graph.lt_opCount hop), fun hop _ hj ↦ ?_,
    fun {b} hb blk hblk ↦ ?_, fun _ hop _ ↦ Or.inl ⟨hlive (Graph.lt_opCount hop), rewrites_whole _⟩⟩
  · exact hlive ((hfit.wellFormed.referring hop).value_lt _ hj)
  · have hjoin : Control.joinOf (whole g).controlOf (g.successors b) =
        Control.joinOf (g.entryControl (whole g).isLive) (g.successors b) :=
      Control.joinOf_congr fun t ht ↦ controlOf_whole (hg.target_lt ht)
    rw [controlOf_whole hb, hjoin]
    exact settled_entryControl hg hfit hord _ b hblk

end Liveness

theorem rewrite?_whole (i : OpIndex) (op : Operation) :
    (Liveness.whole g).rewrite? i op = none := by
  rw [Liveness.rewrite?, Liveness.rewrites_whole]
  split <;> rfl

private theorem intact_whole (g : Graph) : Intact g (.whole g) where
  live hop _ := by
    rw [Liveness.isLive_whole]
    exact decide_eq_true (Graph.lt_opCount hop)
  rewritten _ ht := by
    rw [rewrite?_whole] at ht
    cases ht

/-! ## The empty stack

Without reducers each operation is copied as it is, as it is by the one that drops dead operations
if nothing is dead. -/

namespace Build

theorem source_eq_of_mapBlock {b c : BlockIndex} (h : Yields (mapBlock b) a c a') :
    a'.source = a.source := by
  rcases yields_mapBlock h with ⟨-, rfl⟩ | ⟨-, -, -, blk, -, -, rfl⟩ <;> rfl

private theorem source_eq_of_rename {op op' : Operation}
    (h : Yields (op.rename mapBlock mapInput) a op' a') : a'.source = a.source :=
  (renamedTo_of_rename (P := fun a₁ ↦ a₁.source = a.source)
    (fun _ _ {_ _ _} h₁ hc ↦ (source_eq_of_mapBlock hc).trans h₁) rfl h).1

private theorem source_eq_of_copyOperation {i : OpIndex} {op : Operation} {v : Option OpIndex}
    (hop : a.source.ops[i]? = some op) (h : Yields (copyOperation i) a v a') :
    a'.source = a.source := by
  rcases yields_copyOperation hop h with
    ⟨-, inputs, complete, w, a₁, -, hemit, -, rfl⟩ | ⟨-, op', w, a₁, hren, hemit, -⟩
  · obtain ⟨c, -, -, rfl, -⟩ := yields_emit hemit
    cases complete <;> rfl
  · obtain ⟨c, -, -, rfl, -⟩ := yields_emit hemit
    have hsource := source_eq_of_rename hren
    exact hsource

private theorem copyOp_of_whole {i : OpIndex} (hi : i < g.opCount) (ha : a.source = g)
    (h : Yields (copyOp (Graph.eliminators (.whole g) false) i) a ⟨⟩ a') :
    Yields (copyOp [] i) a ⟨⟩ a' ∧ a'.source = g := by
  obtain ⟨op, hop⟩ := Graph.exists_op hi
  rw [← ha] at hop
  obtain ⟨v, a₁, hred, rfl⟩ := yields_copyOp h
  rcases yields_dropDead hop hred with
    ⟨t, c, w, a₂, ht, -⟩ | ⟨-, ⟨-, hnext⟩ | ⟨hdead, -⟩⟩
  · cases (rewrite?_whole i op).symm.trans ht
  · refine ⟨?_, (source_eq_of_copyOperation hop hnext).trans ha⟩
    rw [copyOp, yields_bind]
    exact ⟨v, a₁, hnext, yields_modify.mpr rfl⟩
  · rw [Liveness.whole, Array.getElem?_replicate, if_pos hi] at hdead
    cases hdead

private theorem copyBlock_of_whole (hg : g.Sound) {b : BlockIndex} (ha : a.source = g)
    (h : Yields (copyBlock (Graph.eliminators (.whole g) false) b) a ⟨⟩ a') :
    Yields (copyBlock [] b) a ⟨⟩ a' ∧ a'.source = g := by
  obtain ⟨w, a₀, hw, hcases⟩ := yields_copyBlock h
  have hwanted : Yields (wanted b) a w a₀ := hw
  obtain ⟨rfl, -⟩ := yields_wanted hwanted
  rcases hcases with ⟨rfl, rfl⟩ | ⟨rfl, c, a₁, output, hmap, hbind, hops, hbound⟩
  · refine ⟨?_, ha⟩
    rw [copyBlock, yields_bind]
    exact ⟨false, a', hwanted, yields_pure.mpr ⟨rfl, rfl⟩⟩
  · have ha₁ := (source_eq_of_mapBlock hmap).trans ha
    obtain ⟨hops', ha'⟩ : Yields ((a₁.source.span b).toList.forM (copyOp []))
        { a₁ with output, filled := a₁.filled.push c, current := some b } ⟨⟩ a' ∧ a'.source = g :=
      forM_of_yields (fun i hi {_ _} hs hstep ↦ copyOp_of_whole (hg.lt_of_mem_span (by
        rw [ha₁] at hi
        exact hi)) hs hstep) ha₁ hops
    exact ⟨copyBlock_of_yields hwanted hmap hbind hops' hbound, ha'⟩

private theorem rebuild_of_whole (hg : g.Sound) (hpos : 0 < g.blockCount)
    (h : g.rebuild (Graph.eliminators (.whole g) false) = .ok g') : g.rebuild [] = .ok g' := by
  obtain ⟨c, a₁, a₂, a, hmap, hcopy, hphis, hre⟩ := yields_of_rebuild hpos h
  have ha₁ : a₁.source = g := source_eq_of_mapBlock hmap
  obtain ⟨hcopy', -⟩ : Yields ((List.range g.blockCount).forM (copyBlock [])) a₁ ⟨⟩ a₂ ∧
      a₂.source = g :=
    forM_of_yields (fun b _ {_ _} hs hstep ↦ copyBlock_of_whole hg hs hstep) ha₁ hcopy
  exact rebuild_of_yields hpos hmap hcopy' hphis hre

end Build

/-! ## The copy

The numbers of operations in the order of the blocks, and the lists of predecessors sorted by
source, with the inputs of phis sorted along with them. -/

namespace Graph

/-- The number of an operation when the operations are counted block by block. -/
def laidIndex (g : Graph) (i : OpIndex) : OpIndex := (g.opsOf (List.range g.blockCount)).idxOf i

def hasPhi (g : Graph) (b : BlockIndex) : Bool :=
  (g.span b).toList.any fun i ↦ g.ops[i]?.any Operation.isPhi

end Graph

/-- `g'` is `g` with its operations in the order of the blocks and its edges in the order of their
sources. -/
structure Copied (g g' : Graph) : Prop where
  name_eq : g'.name = g.name
  bound_eq : g'.bound = none
  blockCount_eq : g'.blockCount = g.blockCount
  opCount_eq : g'.opCount = g.opCount
  /-- A block is as it was, except that a merge with one predecessor and no phi is plain. -/
  block : ∀ {b : BlockIndex} {blk : Block}, g.blocks[b]? = some blk → ∃ blk',
    g'.blocks[b]? = some blk' ∧ blk'.deferred = blk.deferred ∧ blk'.kind =
      if blk.isMerge && (g.predecessors b).length = 1 && !g.hasPhi b then .plain else blk.kind
  span : ∀ b, (g'.span b).toList = (g.span b).toList.map g.laidIndex
  op : ∀ {i : OpIndex} {op : Operation}, g.ops[i]? = some op → op.isPhi = false →
    g'.ops[g.laidIndex i]? = some ⟨op.action, op.inputs.map g.laidIndex⟩
  /-- Edges come in the order of their sources, the true side of a branch before the false one. -/
  edges : g'.edges.toList =
    (List.range g.blockCount).flatMap fun b ↦ (g.successors b).map (Edge.mk b)
  predecessors : ∀ b, g'.predecessors b = (g.predecessors b).mergeSort fun p q ↦ p ≤ q
  /-- The inputs of a phi are sorted along with the predecessors that they belong to. -/
  phi : ∀ {b : BlockIndex} {i : OpIndex} {op : Operation}, i ∈ (g.span b).toList →
    g.ops[i]? = some op → op.isPhi = true → ∃ inputs,
      g'.ops[g.laidIndex i]? = some ⟨op.action, inputs⟩ ∧
      inputs.length = (g'.predecessors b).length ∧
      (g'.predecessors b).zip inputs =
        ((g.predecessors b).zip (op.inputs.map g.laidIndex)).mergeSort fun e e' ↦ e.1 ≤ e'.1

namespace Remnant

variable {s : Liveness} {β : BlockIndex → Option BlockIndex} {ω : OpIndex → Option OpIndex}
  (h : Remnant g s g' β ω) (hA : Liveness.Analysed g s) (hint : Intact g s)

include h hA hint

theorem op_laid {i : OpIndex} (hi : i < g.opCount) : ω i = some (g.laidIndex i) := by
  have hmem := (Graph.mem_opsOf hA.sound (.refl _)).mpr hi
  have hlt : g.laidIndex i < (g.opsOf (List.range g.blockCount)).length :=
    List.idxOf_lt_length_of_mem hmem
  have hcount : g.laidIndex i < g'.opCount := by
    rwa [(Graph.opsOf_perm hA.sound (.refl _)).length_eq, List.length_range,
      ← h.opCount_eq hA hint] at hlt
  have hget := congrArg (·[g.laidIndex i]?) (h.map_opsOf hA hint)
  simp only [List.getElem?_map, List.getElem?_range hcount, List.getElem?_eq_getElem hlt,
    Option.map_some, Option.some.injEq] at hget
  rw [hget]
  exact congrArg ω (List.getElem_idxOf hlt).symm

theorem span_laid (b : BlockIndex) : (g'.span b).toList = (g.span b).toList.map g.laidIndex := by
  by_cases hb : b < g.blockCount
  · refine (List.map_injective_iff.mpr (Option.some_injective _)) ?_
    rw [h.map_span hA hint hb, List.map_map]
    exact List.map_congr_left fun i hi ↦ h.op_laid hA hint (hA.sound.lt_of_mem_span hi)
  · have hle := Nat.le_of_not_lt hb
    rw [Graph.toList_span_of_le hle, List.map_nil]
    exact Graph.toList_span_of_le (h.blockCount_eq hA hint ▸ hle)

theorem successors_eq (b : BlockIndex) : g'.successors b = g.successors b := by
  by_cases hb : b < g.blockCount
  · refine (List.map_injective_iff.mpr (Option.some_injective _)) ?_
    rw [← h.thinned.successors (h.block_self hA hint hb), hint.exits_eq hA hb]
    exact List.map_congr_left fun t ht ↦ h.block_self hA hint (hA.sound.target_lt ht)
  · have hempty := Graph.toList_span_of_le (Nat.le_of_not_lt hb)
    have hempty' := h.span_laid hA hint b
    rw [hempty, List.map_nil] at hempty'
    rw [Graph.successors_of_empty hempty, Graph.successors_of_empty hempty']

private theorem predecessors_eq (b : BlockIndex) :
    g'.predecessors b = (g.predecessors b).mergeSort fun p q ↦ p ≤ q := by
  refine List.Perm.eq_of_pairwise' (h.laid.pairwise_predecessors h.thinned.sound h.edges_eq b)
    (List.pairwise_mergeSort' (· ≤ ·) _) (List.Perm.trans ?_ (List.mergeSort_perm _ _).symm)
  rw [List.perm_iff_count]
  intro p
  rw [h.thinned.sound.count_predecessors_eq, hA.sound.count_predecessors_eq,
    h.successors_eq hA hint]

theorem exists_laid {i : OpIndex} {op : Operation} (hop : g.ops[i]? = some op) :
    ∃ op', g'.ops[g.laidIndex i]? = some op' ∧ Image s β ω i op op' ∧ op'.action = op.action := by
  obtain ⟨op', hop', himage⟩ :=
    h.reduced.image (h.op_laid hA hint (Graph.lt_opCount hop)) hop
  exact ⟨op', hop', himage, h.action_eq hA hint hop himage⟩

private theorem hasPhi_eq (b : BlockIndex) : g'.hasPhi b = g.hasPhi b := by
  rw [Graph.hasPhi, h.span_laid hA hint, List.any_map, Graph.hasPhi, Bool.eq_iff_iff,
    List.any_eq_true, List.any_eq_true]
  refine exists_congr fun i ↦ and_congr_right fun hi ↦ ?_
  obtain ⟨op, hop⟩ := Graph.exists_op (hA.sound.lt_of_mem_span hi)
  obtain ⟨op', hop', -, haction⟩ := h.exists_laid hA hint hop
  rw [Function.comp_apply, hop', hop, Option.any_some, Option.any_some, Operation.isPhi, haction,
    ← Operation.isPhi]

private theorem zip_inputs (hwf' : g'.WellFormed) {b : BlockIndex} {i : OpIndex}
    {op op' : Operation} (hi : i ∈ (g.span b).toList) (hop : g.ops[i]? = some op)
    (hphi : op.isPhi = true) (hop' : g'.ops[g.laidIndex i]? = some op')
    (haction : op'.action = op.action) :
    op'.inputs.length = (g'.predecessors b).length ∧ (g'.predecessors b).zip op'.inputs
      = ((g.predecessors b).zip (op.inputs.map g.laidIndex)).mergeSort fun e e' ↦ e.1 ≤ e'.1 := by
  have hb := Graph.lt_blockCount_of_mem_span hi
  obtain ⟨blk, hblk⟩ := Graph.exists_block hb
  obtain ⟨blk', hblk'⟩ := Graph.exists_block ((h.blockCount_eq hA hint).symm ▸ hb)
  have hlen := (hA.fit.wellFormed.matched hblk (Graph.span_of_block hblk ▸ hi) hop hphi).2
  have hi' : g.laidIndex i ∈ (g'.span b).toList := by
    rw [h.span_laid hA hint]
    exact List.mem_map_of_mem hi
  have hphi' : op'.isPhi = true := by rwa [Operation.isPhi, haction, ← Operation.isPhi]
  have hlen' := (hwf'.matched hblk' (Graph.span_of_block hblk' ▸ hi') hop' hphi').2
  refine ⟨hlen', eq_mergeSort_fst ?_ fun p ↦ List.ext_getElem? fun r ↦ ?_⟩
  · rw [← List.pairwise_map (f := Prod.fst) (R := (· ≤ ·)),
      List.map_fst_zip (Nat.le_of_eq hlen'.symm)]
    exact h.laid.pairwise_predecessors h.thinned.sound h.edges_eq b
  rw [getElem?_filter_zip hlen', getElem?_filter_zip (by rw [List.length_map, hlen])]
  have hslots : (g'.slots b p).length = (g.slots b p).length := by
    rw [Graph.length_slots h.thinned.sound, Graph.length_slots hA.sound, h.successors_eq hA hint]
  change (g'.slots b p)[r]?.bind _ = (g.slots b p)[r]?.bind _
  by_cases hr : r < (g'.slots b p).length
  · have hq := List.getElem?_eq_getElem hr
    generalize (g'.slots b p)[r] = q at hq
    have hp : p < g.blockCount := by
      rw [← h.blockCount_eq hA hint]
      have hmem := List.mem_of_getElem? (getElem?_positionsOf.mp hq).1
      exact (h.thinned.sound.arc_lt (h.thinned.sound.mem_predecessors_iff.mp hmem)).1
    obtain ⟨k, j, w, hk, hj, hw, hinput⟩ := h.reduced.phi
      (h.op_laid hA hint (Graph.lt_opCount hop)) hi hop hphi hop' (h.block_self hA hint hb)
      (h.block_self hA hint hp) hq
    have hjlt := (hA.fit.wellFormed.referring hop).value_lt j (List.mem_of_getElem? hj)
    cases hw.symm.trans (h.op_laid hA hint hjlt)
    rw [hq, hk, Option.bind_some, Option.bind_some, hinput, List.getElem?_map, hj]
    rfl
  · rw [List.getElem?_eq_none (Nat.not_lt.mp hr),
      List.getElem?_eq_none (Nat.not_lt.mp (hslots ▸ hr)), Option.bind_none, Option.bind_none]

private theorem op_of_image {i : OpIndex} {op op' : Operation} (hop : g.ops[i]? = some op)
    (hphi : op.isPhi = false) (himage : Image s β ω i op op') :
    op' = ⟨op.action, op.inputs.map g.laidIndex⟩ := by
  have haction := h.action_eq hA hint hop himage
  cases himage with
  | rewritten ht hc =>
    rw [hint.rewritten hop ht, h.block_eq hA hint hc]
    rfl
  | phi hphi' =>
    rw [hphi] at hphi'
    cases hphi'
  | renamed _ _ _ hren =>
    rw [← haction]
    suffices hinputs : op'.inputs = op.inputs.map g.laidIndex by rw [← hinputs]
    have hlen := hren.inputs.length_eq
    refine List.ext_getElem (by rw [List.length_map, hlen]) fun q hq' hq ↦ ?_
    have hvalue := hren.inputs.get (hlen ▸ hq') hq'
    have hlt := (hA.fit.wellFormed.referring hop).value_lt _ (List.getElem_mem (hlen ▸ hq'))
    rw [List.get_eq_getElem, List.get_eq_getElem, h.op_laid hA hint hlt,
      Option.some.injEq] at hvalue
    rw [List.getElem_map, ← hvalue]

private theorem copied (hwf' : g'.WellFormed) : Copied g g' where
  name_eq := h.name_eq
  bound_eq := h.bound_eq
  blockCount_eq := h.blockCount_eq hA hint
  opCount_eq := h.opCount_eq hA hint
  block {b blk} hblk := by
    have hb := Graph.lt_blockCount hblk
    obtain ⟨blk', hblk'⟩ := Graph.exists_block ((h.blockCount_eq hA hint).symm ▸ hb)
    obtain ⟨hdeferred, hkind⟩ := h.block (h.block_self hA hint hb) hblk hblk'
    have hlen : (g.predecessors b).length = (g'.predecessors b).length := by
      rw [h.predecessors_eq hA hint, List.length_mergeSort]
    refine ⟨blk', hblk', hdeferred, ?_⟩
    rw [hlen, ← h.hasPhi_eq hA hint]
    split
    · rename_i hmerge
      rw [Bool.and_eq_true, Bool.and_eq_true, decide_eq_true_eq, Bool.not_eq_true'] at hmerge
      obtain ⟨⟨hmerge, hone⟩, hphi⟩ := hmerge
      rcases hkind with hsame | ⟨-, hplain, -⟩
      -- a merge that stayed one with a single predecessor would need a phi
      · obtain ⟨i, hi, hany⟩ := h.merge hblk' (by rwa [Block.isMerge, hsame, ← Block.isMerge]) hone
        rw [Graph.hasPhi, List.any_eq_false] at hphi
        exact absurd hany (hphi i hi)
      · exact hplain
    · rename_i hmerge
      rcases hkind with hsame | ⟨hm, -, hone, hphi⟩
      · exact hsame
      · refine absurd ?_ hmerge
        have hnophi : g'.hasPhi b = false := by
          rw [Graph.hasPhi, List.any_eq_false]
          exact fun i hi ↦ by rw [hphi i hi]; simp
        simp [hm, hone, hnophi]
  span := h.span_laid hA hint
  op {i op} hop hphi := by
    obtain ⟨op', hop', himage, -⟩ := h.exists_laid hA hint hop
    rw [hop', h.op_of_image hA hint hop hphi himage]
  edges := by
    rw [h.edges_eq, h.laid.recordedEdges_eq h.thinned.sound, h.blockCount_eq hA hint]
    exact List.flatMap_congr fun b _ ↦ by rw [h.successors_eq hA hint]
  predecessors := h.predecessors_eq hA hint
  phi {b i op} hi hop hphi := by
    obtain ⟨op', hop', -, haction⟩ := h.exists_laid hA hint hop
    refine ⟨op'.inputs, ?_, h.zip_inputs hA hint hwf' hi hop hphi hop' haction⟩
    rw [hop', ← haction]

end Remnant

private theorem exists_copied (hg : g.Sound) (hfit : g.Fit) (hord : g.InReversePostorder)
    (hdef : g.DefinedFirst) : ∃ g' β ω, g.rebuild [] = .ok g' ∧ Remnant g (.whole g) g' β ω ∧
      g'.Fit ∧ g'.InReversePostorder := by
  have hA := Liveness.analysed_whole hg hfit hord
  obtain ⟨g', h, -, hfit', hord'⟩ :=
    exists_rebuild hA (Liveness.ready_of_definedFirst hg hdef _) false
  obtain ⟨β, ω, hrem⟩ := exists_remnant hA h
  exact ⟨g', β, ω, Build.rebuild_of_whole hg hfit.wellFormed.pos h, hrem, hfit', hord'⟩

/-- Copying a verified graph whose values are defined before they are used gives the same graph in
the order of its blocks, and copying the copy changes nothing. -/
theorem copied_of_rebuild {g : Graph} (hbuilt : g.Built) (hfit : g.problems true = [])
    (hdef : g.DefinedFirst) :
    ∃ g', g.rebuild [] = .ok g' ∧ Copied g g' ∧ g'.rebuild [] = .ok g' := by
  have hg := hbuilt.sound
  obtain ⟨hf, hord⟩ := (Graph.problems_eq_nil hg true).mp hfit
  obtain ⟨g', β, ω, h, hrem, hfit', hord'⟩ := exists_copied hg hf (hord rfl) hdef
  have hcopied := hrem.copied (Liveness.analysed_whole hg hf (hord rfl)) (intact_whole g)
    hfit'.wellFormed
  have hsound := hrem.thinned.sound
  obtain ⟨g'', β', ω', h', hrem', hfit'', -⟩ :=
    exists_copied hsound hfit' hord' hrem.definedFirst
  obtain rfl := hrem'.eq_self (Liveness.analysed_whole hsound hfit' hord') (intact_whole g')
    hrem.laid hrem.edges_eq hrem.bound_eq hfit''.wellFormed hrem.merge
  exact ⟨g'', h, hcopied, h'⟩

/-- A branch whose sides meet in a merge with a phi, and a merge that is entered once. -/
def crossingBlocks : List (BlockKind × List Operation) :=
  [(.entry, [.pure .empty [], .pure .empty [0], .branch 0 1 2 .unhinted]),
    (.plain, [.goto 3]),
    (.plain, [.goto 3]),
    (.merge, [⟨.phi .word32, [0, 1]⟩, .goto 4]),
    (.merge, [.ret [5]])]

/-- The graph of a branch whose sides were swapped, so that the latter one leads to the merge
first. -/
def Graph.sampleCrossing : Graph :=
  (ofBlocks crossingBlocks >>= (·.reorder [0, 2, 1, 3, 4])).toOption.getD (.empty .empty)

theorem copied_of_rebuild_sampleCrossing : ∃ g', Graph.sampleCrossing.rebuild [] = .ok g' ∧
    Copied Graph.sampleCrossing g' ∧ g'.rebuild [] = .ok g' := by
  have hbuilt : Graph.sampleCrossing.Built := by
    rw [Graph.sampleCrossing]
    cases h : Graph.ofBlocks crossingBlocks >>= (·.reorder [0, 2, 1, 3, 4]) with
    | error e => exact .empty .empty
    | ok g =>
      obtain ⟨g₀, h₀, hre⟩ := exists_of_bind_ok h
      exact (Graph.ofBlocks_built h₀).reorder hre
  exact copied_of_rebuild hbuilt (by decide +kernel) (by decide +kernel)

example : Graph.sampleCrossing.predecessors 3 = [2, 1] ∧
    (Graph.sampleCrossing.rebuild []).toOption.map
      (fun g' ↦ (g'.predecessors 3, g'.blocks.map Block.kind)) =
        some ([1, 2], #[.entry, .plain, .plain, .merge, .plain]) := by
  decide +kernel

end Flowgraph
