import Flowgraph.Proofs.Order.Numbering
import Flowgraph.Verify

/-!
# Graphs without problems

Verification lists problems. Here the absence of each kind of problem is turned into what it says
about the graph: `WellFormed` for the structural rules, and one statement each for reachability,
for the kinds of the loop blocks and for the order of the blocks. All of them but the last are
kept by a renaming that keeps the entry, so that renumbering a graph without problems can only
bring up problems of order.

## When the order stage does its work

Renumbering a graph by its special reverse postorder always succeeds if the graph has no problem
before. The result is in reverse postorder exactly if the order puts every edge but the backedges
forward, which is so for reducible graphs. Where loops overlap without one containing the other it
can fail.
-/

namespace Flowgraph

namespace Graph

variable {g : Graph}

/-! ## Structural rules

Each list of violations is empty exactly if a statement about all blocks, or all operations, is
true. -/

theorem mem_blockOps {blk : Block} {i : OpIndex} {op : Operation} :
    (i, op) ∈ g.blockOps blk ↔ i ∈ blk.span.toList ∧ g.ops[i]? = some op := by
  rw [blockOps, List.mem_filterMap]
  constructor
  · rintro ⟨j, hj, heq⟩
    obtain ⟨op', hop', heq⟩ := Option.map_eq_some_iff.mp heq
    cases heq
    exact ⟨hj, hop'⟩
  · rintro ⟨hi, hop⟩
    exact ⟨i, hi, by rw [hop, Option.map_some]⟩

/-- The last operation of a block is its only terminator. -/
structure Terminated (g : Graph) (blk : Block) : Prop where
  exists_last : ∃ i op, blk.span.last? = some i ∧ g.ops[i]? = some op ∧ op.isTerminator = true
  only_last : ∀ {i : OpIndex} {op : Operation}, i ∈ blk.span.toList → g.ops[i]? = some op →
    op.isTerminator = true → blk.span.last? = some i

theorem terminatorViolations_eq_nil {b : BlockIndex} {blk : Block} :
    g.terminatorViolations b blk = [] ↔ g.Terminated blk := by
  rw [terminatorViolations]
  cases hlast : blk.span.last? with
  | none =>
    simp only [false_iff, List.cons_ne_nil]
    rintro ⟨⟨i, op, hi, -, -⟩, -⟩
    rw [hlast] at hi
    cases hi
  | some last =>
    simp only [List.append_eq_nil_iff, List.filterMap_eq_nil_iff, ite_eq_left_iff, reduceCtorEq,
      imp_false, Bool.not_eq_true, Bool.not_eq_false, Prod.forall, ite_eq_right_iff, not_and]
    constructor
    · rintro ⟨honly, hends⟩
      refine ⟨?_, fun {i op} hi hop hend ↦ ?_⟩
      · cases hop : g.ops[last]? with
        | none => simp [hop] at hends
        | some op => exact ⟨last, op, hlast, hop, by simpa [hop] using hends⟩
      · have := honly i op (mem_blockOps.mpr ⟨hi, hop⟩) hend
        rw [hlast, Option.some.injEq]
        exact (not_not.mp this).symm
    · rintro ⟨⟨i, op, hi, hop, hend⟩, honly⟩
      rw [hlast, Option.some.injEq] at hi
      subst hi
      refine ⟨fun j op' hmem hend' ↦ ?_, by simp [hop, hend]⟩
      obtain ⟨hj, hop'⟩ := mem_blockOps.mp hmem
      have := honly hj hop' hend'
      rw [hlast, Option.some.injEq] at this
      simp [this]

/-- An operation refers to values and blocks of the graph, and a branch has one condition. -/
structure Referring (g : Graph) (op : Operation) : Prop where
  value_lt : ∀ j ∈ op.inputs, j < g.opCount
  target_lt : ∀ t ∈ op.successors, t < g.blockCount
  condition : ∀ {t f hint}, op.action = .branch t f hint → op.inputs.length = 1

theorem referenceViolations_eq_nil {i : OpIndex} {op : Operation} :
    g.referenceViolations i op = [] ↔ g.Referring op := by
  have hinputs : ∀ {f : OpIndex × Nat → Option Violation},
      (∀ j k, f (j, k) = none ↔ j < g.opCount) →
        (op.inputs.zipIdx.filterMap f = [] ↔ ∀ j ∈ op.inputs, j < g.opCount) := by
    intro f hf
    simp only [List.filterMap_eq_nil_iff, Prod.forall, hf]
    constructor
    · intro h j hj
      obtain ⟨k, hk, rfl⟩ := List.mem_iff_getElem.mp hj
      exact h _ k (List.mem_zipIdx_iff_getElem?.mpr (List.getElem?_eq_getElem hk))
    · intro h j k hmem
      exact h j (List.mem_of_getElem? (List.mem_zipIdx_iff_getElem?.mp hmem))
  have htarget : ∀ (b : BlockIndex) (v : Violation),
      (if b < g.blockCount then [] else [v]) = [] ↔ b < g.blockCount := by
    intro b v
    split <;> simp_all
  obtain ⟨action, inputs⟩ := op
  rw [referenceViolations, List.append_eq_nil_iff]
  rw [hinputs fun j k ↦ by simp]
  cases action with
  | goto t =>
    simp only [htarget]
    exact ⟨fun h ↦ ⟨h.1, by simpa [Operation.successors] using h.2, by simp⟩,
      fun h ↦ ⟨h.value_lt, h.target_lt t (by simp [Operation.successors])⟩⟩
  | branch t f hint =>
    simp only [List.append_eq_nil_iff, htarget]
    constructor
    · rintro ⟨hvalues, ⟨hcond, ht⟩, hf⟩
      refine ⟨hvalues, by simp [Operation.successors, ht, hf], fun _ ↦ ?_⟩
      by_contra hne
      simp [hne] at hcond
    · intro h
      refine ⟨h.value_lt, ⟨if_pos (h.condition rfl), ?_⟩, ?_⟩
      · exact h.target_lt t (by simp [Operation.successors])
      · exact h.target_lt f (by simp [Operation.successors])
  | _ =>
    simp only [and_true]
    exact ⟨fun h ↦ ⟨h, by simp [Operation.successors], by simp⟩, fun h ↦ h.value_lt⟩

/-- The entry and only the entry has no predecessors, and a plain block has one. -/
structure Joined (g : Graph) (b : BlockIndex) (blk : Block) : Prop where
  entry_iff : blk.kind = .entry ↔ b = 0
  no_predecessors_iff : g.predecessors b = [] ↔ b = 0
  plain : blk.kind = .plain → (g.predecessors b).length = 1

private theorem predecessorViolations_eq_nil {b : BlockIndex} {blk : Block} :
    g.predecessorViolations b blk = [] ↔ g.Joined b blk := by
  rw [predecessorViolations]
  have hzero : (g.predecessors b).length = 0 ↔ g.predecessors b = [] := List.length_eq_zero_iff
  by_cases hb : b = 0
  · simp only [hb, if_true, List.append_eq_nil_iff, ite_eq_left_iff, List.cons_ne_nil, imp_false,
      not_not]
    rw [hb] at hzero
    rw [hzero]
    constructor
    · rintro ⟨hkind, hpreds⟩
      exact ⟨by simp [hkind], by simp [hpreds], fun hplain ↦ by rw [hkind] at hplain; cases hplain⟩
    · exact fun h ↦ ⟨h.entry_iff.mpr rfl, h.no_predecessors_iff.mpr rfl⟩
  · simp only [hb, if_false, hzero]
    by_cases hkind : blk.kind = .entry
    · simp only [hkind, if_true, List.cons_ne_nil, false_iff]
      exact fun h ↦ hb (h.entry_iff.mp hkind)
    · by_cases hpreds : g.predecessors b = []
      · simp only [hkind, hpreds, if_true, if_false, List.cons_ne_nil, false_iff]
        exact fun h ↦ hb (h.no_predecessors_iff.mp hpreds)
      · simp only [hkind, hpreds, if_false, ite_eq_right_iff, List.cons_ne_nil, imp_false, not_and,
          not_not]
        exact ⟨fun h ↦ ⟨by simp [hkind, hb], by simp [hpreds, hb], h⟩, fun h ↦ h.plain⟩

/-- The phis of a block match its predecessors. -/
def Matched (g : Graph) (b : BlockIndex) (blk : Block) : Prop :=
  ∀ {i : OpIndex} {op : Operation}, i ∈ blk.span.toList → g.ops[i]? = some op →
    op.isPhi = true →
    (blk.isLoop || blk.isMerge) = true ∧ op.inputs.length = (g.predecessors b).length

private theorem phiViolations_eq_nil {b : BlockIndex} {blk : Block} :
    g.phiViolations b blk = [] ↔ g.Matched b blk := by
  rw [phiViolations, List.filterMap_eq_nil_iff]
  constructor
  · intro h i op hi hop hphi
    have := h (i, op) (mem_blockOps.mpr ⟨hi, hop⟩)
    simp only [hphi, Bool.not_true, Bool.false_eq_true, if_false] at this
    split at this
    · cases this
    · rename_i hkind
      split at this
      · cases this
      · rename_i harity
        rw [Bool.not_eq_true, Bool.not_eq_false'] at hkind
        exact ⟨hkind, not_not.mp harity⟩
  · rintro h ⟨i, op⟩ hmem
    obtain ⟨hi, hop⟩ := mem_blockOps.mp hmem
    simp only
    split
    · rfl
    · rename_i hphi
      obtain ⟨hkind, harity⟩ := h hi hop (by simpa using hphi)
      simp [hkind, harity]

/-- A graph without structural violations. -/
structure WellFormed (g : Graph) : Prop where
  pos : 0 < g.blockCount
  terminated : ∀ {b : BlockIndex} {blk : Block}, g.blocks[b]? = some blk → g.Terminated blk
  referring : ∀ {i : OpIndex} {op : Operation}, g.ops[i]? = some op → g.Referring op
  joined : ∀ {b : BlockIndex} {blk : Block}, g.blocks[b]? = some blk → g.Joined b blk
  matched : ∀ {b : BlockIndex} {blk : Block}, g.blocks[b]? = some blk → g.Matched b blk

theorem violations_eq_nil : g.violations = [] ↔ g.WellFormed := by
  have hblocks : ∀ f : Block × BlockIndex → List Violation,
      g.blocks.toList.zipIdx.flatMap f = [] ↔
        ∀ {b : BlockIndex} {blk : Block}, g.blocks[b]? = some blk → f (blk, b) = [] := by
    intro f
    simp only [List.flatMap_eq_nil_iff, Prod.forall, List.mem_zipIdx_iff_getElem?,
      Array.getElem?_toList]
    exact ⟨fun h b blk ↦ h blk b, fun h blk b ↦ h⟩
  have hops : ∀ f : Operation × OpIndex → List Violation,
      g.ops.toList.zipIdx.flatMap f = [] ↔
        ∀ {i : OpIndex} {op : Operation}, g.ops[i]? = some op → f (op, i) = [] := by
    intro f
    simp only [List.flatMap_eq_nil_iff, Prod.forall, List.mem_zipIdx_iff_getElem?,
      Array.getElem?_toList]
    exact ⟨fun h i op ↦ h op i, fun h op i ↦ h⟩
  rw [violations]
  split
  · rename_i hzero
    simp only [List.cons_ne_nil, false_iff]
    intro h
    have := h.pos
    omega
  · rename_i hpos
    simp only [List.append_eq_nil_iff]
    rw [hblocks, hops, hblocks, hblocks]
    simp only [terminatorViolations_eq_nil, referenceViolations_eq_nil,
      predecessorViolations_eq_nil, phiViolations_eq_nil]
    refine ⟨?_, fun h ↦ ⟨⟨⟨h.terminated, h.referring⟩, h.joined⟩, h.matched⟩⟩
    rintro ⟨⟨⟨h₁, h₂⟩, h₃⟩, h₄⟩
    exact ⟨Nat.pos_of_ne_zero hpos, h₁, h₂, h₃, h₄⟩

/-! ## Reachability, loops and order

The other problems are looked for with the help of the discovery search, and stated here without it.
-/

private theorem unreachableProblems_eq_nil (hg : g.Sound) :
    g.unreachableProblems = [] ↔ ∀ b < g.blockCount, b ∈ g.discovery.order := by
  simp only [unreachableProblems, List.filterMap_eq_nil_iff, List.mem_range, ite_eq_left_iff,
    reduceCtorEq, imp_false, not_not]
  exact forall₂_congr fun b _ ↦ (discovery_traced hg).done_iff b

/-- The loop blocks are the targets of the backedges. -/
def LoopsMarked (g : Graph) : Prop :=
  ∀ {b : BlockIndex} {blk : Block}, g.blocks[b]? = some blk →
    (blk.isLoop = true ↔ ∃ u, ⟨u, b⟩ ∈ g.backedges)

private theorem loopKindProblems_eq_nil : g.loopKindProblems = [] ↔ g.LoopsMarked := by
  simp only [loopKindProblems, List.filterMap_eq_nil_iff, Prod.forall,
    List.mem_zipIdx_iff_getElem?, Array.getElem?_toList]
  rw [forall_comm, LoopsMarked]
  refine forall₃_congr fun b blk _ ↦ ?_
  cases hfind : g.backedges.find? (·.header = b) with
  | some e =>
    have hheader : e.header = b := by simpa using List.find?_some hfind
    have hmem := List.mem_of_find?_eq_some hfind
    have hex : ∃ u, ⟨u, b⟩ ∈ g.backedges := ⟨e.source, hheader ▸ hmem⟩
    simp [hex]
  | none =>
    have hno : ¬∃ u, ⟨u, b⟩ ∈ g.backedges := by
      rintro ⟨u, hu⟩
      have := List.find?_eq_none.mp hfind _ hu
      simp at this
    simp only [hno, iff_false, ite_eq_right_iff, reduceCtorEq, imp_false]

/-- The blocks are numbered in reverse postorder: an edge leads to the same or to an earlier block
exactly if it is a backedge. -/
def InReversePostorder (g : Graph) : Prop :=
  ∀ u v, g.Arc u v → (⟨u, v⟩ ∈ g.backedges ↔ v ≤ u)

private theorem orderProblems_eq_nil (hg : g.Sound) :
    g.orderProblems = [] ↔ g.InReversePostorder := by
  simp only [orderProblems, List.flatMap_eq_nil_iff, List.mem_range, List.filterMap_eq_nil_iff,
    ite_eq_left_iff, reduceCtorEq, imp_false, not_not]
  constructor
  · intro h u v harc
    have := h u (hg.arc_lt harc).1 v harc
    rw [Bool.eq_iff_iff, List.contains_iff_mem, decide_eq_true_iff] at this
    exact this
  · intro h u _ v harc
    rw [Bool.eq_iff_iff, List.contains_iff_mem, decide_eq_true_iff]
    exact h u v harc

/-- What verification without the check of the order finds. -/
structure Fit (g : Graph) : Prop where
  wellFormed : g.WellFormed
  reached : ∀ b < g.blockCount, b ∈ g.discovery.order
  loopsMarked : g.LoopsMarked

theorem problems_eq_nil (hg : g.Sound) (ordered : Bool) :
    g.problems ordered = [] ↔ g.Fit ∧ (ordered = true → g.InReversePostorder) := by
  rw [problems]
  cases hv : g.violations with
  | cons v vs =>
    simp only [List.map_cons, List.cons_ne_nil, false_iff]
    intro h
    rw [violations_eq_nil.mpr h.1.wellFormed] at hv
    cases hv
  | nil =>
    have hwf := violations_eq_nil.mp hv
    cases hu : g.unreachableProblems with
    | cons p ps =>
      simp only [List.cons_ne_nil, false_iff]
      intro h
      rw [(unreachableProblems_eq_nil hg).mpr h.1.reached] at hu
      cases hu
    | nil =>
      have hreached := (unreachableProblems_eq_nil hg).mp hu
      simp only [List.append_eq_nil_iff, loopKindProblems_eq_nil, ite_eq_right_iff,
        orderProblems_eq_nil hg]
      exact ⟨fun h ↦ ⟨⟨hwf, hreached, h.1⟩, h.2⟩, fun h ↦ ⟨h.1.loopsMarked, h.2⟩⟩

/-! ## Renaming

All but the order of the blocks can be said of blocks and operations without their numbers, so that
it carries over. -/

namespace Renamed

variable {g g' : Graph} {β : BlockIndex → BlockIndex} {ω : OpIndex → OpIndex}
  (h : Renamed g g' β ω) (hg : g.Sound) (hentry : β 0 = 0)

include h

/-- A block of the renamed graph, with the block that it was. -/
theorem exists_block {b' : BlockIndex} {blk' : Block} (hblk' : g'.blocks[b']? = some blk') :
    ∃ b blk, g.blocks[b]? = some blk ∧ b' = β b ∧ blk'.kind = blk.kind ∧
      blk'.span.toList = blk.span.toList.map ω := by
  obtain ⟨b, hb, rfl⟩ := h.block_surj (h.blockCount_eq ▸ lt_blockCount hblk')
  obtain ⟨blk, hblk⟩ := Graph.exists_block hb
  obtain ⟨blk'', hblk'', hkind, -, -⟩ := h.block hblk
  have heq : blk'' = blk' := Option.some.inj (hblk''.symm.trans hblk')
  refine ⟨b, blk, hblk, rfl, heq ▸ hkind, ?_⟩
  rw [← span_of_block hblk', h.span hb, span_of_block hblk]

theorem exists_op {i' : OpIndex} {op' : Operation} (hop' : g'.ops[i']? = some op') :
    ∃ i op, g.ops[i]? = some op ∧ i' = ω i ∧ op' = op.renamed β ω := by
  obtain ⟨i, hi, rfl⟩ := h.op_surj (h.opCount_eq ▸ lt_opCount hop')
  obtain ⟨op, hop, heq⟩ := h.op_of_renamed hi hop'
  exact ⟨i, op, hop, rfl, heq⟩

private theorem terminated {blk blk' : Block} (hspan : blk'.span.toList = blk.span.toList.map ω)
    (hlt : ∀ i ∈ blk.span.toList, i < g.opCount) (ht : g.Terminated blk) :
    g'.Terminated blk' := by
  have hlast : blk'.span.last? = blk.span.last?.map ω := by
    rw [Span.last?_eq_getLast?, Span.last?_eq_getLast?, hspan, List.getLast?_map]
  obtain ⟨i, op, hi, hop, hend⟩ := ht.exists_last
  refine ⟨⟨ω i, _, by rw [hlast, hi, Option.map_some], h.op hop, ?_⟩,
    fun {j' op'} hj' hop' hend' ↦ ?_⟩
  · rw [Operation.renamed_isTerminator]
    exact hend
  · rw [hspan, List.mem_map] at hj'
    obtain ⟨j, hj, rfl⟩ := hj'
    obtain ⟨op, hop, rfl⟩ := h.op_of_renamed (hlt j hj) hop'
    rw [Operation.renamed_isTerminator] at hend'
    rw [hlast, ht.only_last hj hop hend', Option.map_some]

private theorem referring {op : Operation} (hop : g.Referring op) :
    g'.Referring (op.renamed β ω) where
  value_lt j' hj' := by
    obtain ⟨j, hj, rfl⟩ := List.mem_map.mp hj'
    rw [h.opCount_eq]
    exact h.op_lt (hop.value_lt j hj)
  target_lt t' ht' := by
    rw [Operation.renamed_successors, List.mem_map] at ht'
    obtain ⟨t, ht, rfl⟩ := ht'
    rw [h.blockCount_eq]
    exact h.block_lt (hop.target_lt t ht)
  condition {t' f' hint} heq := by
    rw [Operation.renamed_inputs, List.length_map]
    obtain ⟨action, inputs⟩ := op
    cases action with
    | branch t f hint => exact hop.condition rfl
    | _ => cases heq

private theorem block_eq_zero_iff (hentry : β 0 = 0) (hpos : 0 < g.blockCount) {b : BlockIndex}
    (hb : b < g.blockCount) : β b = 0 ↔ b = 0 :=
  ⟨fun heq ↦ h.block_inj hb hpos (heq.trans hentry.symm), fun heq ↦ heq ▸ hentry⟩

include hg hentry

private theorem reached (hreached : ∀ b < g.blockCount, b ∈ g.discovery.order) :
    ∀ b < g'.blockCount, b ∈ g'.discovery.order := by
  intro b hb
  obtain ⟨c, hc, rfl⟩ := h.block_surj (h.blockCount_eq ▸ hb)
  rw [(h.discovery_mirrors hg hentry).order]
  exact List.mem_map_of_mem (hreached c hc)

theorem wellFormed (hwf : g.WellFormed) : g'.WellFormed where
  pos := by rw [h.blockCount_eq]; exact hwf.pos
  terminated {b' blk'} hblk' := by
    obtain ⟨b, blk, hblk, rfl, -, hspan⟩ := h.exists_block hblk'
    refine h.terminated hspan (fun i hi ↦ ?_) (hwf.terminated hblk)
    rw [← span_of_block hblk] at hi
    exact hg.lt_of_mem_span hi
  referring {i' op'} hop' := by
    obtain ⟨i, op, hop, rfl, rfl⟩ := h.exists_op hop'
    exact h.referring (hwf.referring hop)
  joined {b' blk'} hblk' := by
    obtain ⟨b, blk, hblk, rfl, hkind, -⟩ := h.exists_block hblk'
    have hb := lt_blockCount hblk
    have hzero := h.block_eq_zero_iff hentry hwf.pos hb
    have hj := hwf.joined hblk
    refine ⟨?_, ?_, ?_⟩
    · rw [hkind, hzero, hj.entry_iff]
    · rw [h.predecessors_eq hg hb, List.map_eq_nil_iff, hzero, hj.no_predecessors_iff]
    · rw [hkind, h.predecessors_eq hg hb, List.length_map]
      exact hj.plain
  matched {b' blk'} hblk' {i' op'} hi' hop' hphi := by
    obtain ⟨b, blk, hblk, rfl, hkind, hspan⟩ := h.exists_block hblk'
    rw [hspan, List.mem_map] at hi'
    obtain ⟨i, hi, rfl⟩ := hi'
    have hilt : i < g.opCount := by
      rw [← span_of_block hblk] at hi
      exact hg.lt_of_mem_span hi
    obtain ⟨op, hop, rfl⟩ := h.op_of_renamed hilt hop'
    rw [Operation.renamed_isPhi] at hphi
    obtain ⟨hjoin, harity⟩ := hwf.matched hblk hi hop hphi
    rw [h.predecessors_eq hg (lt_blockCount hblk), List.length_map, Operation.renamed_inputs,
      List.length_map]
    simp only [Block.isLoop, Block.isMerge, hkind] at hjoin ⊢
    exact ⟨hjoin, harity⟩

/-- Under other names a graph without problems has none, the order of its blocks apart. -/
theorem fit (hfit : g.Fit) : g'.Fit where
  wellFormed := h.wellFormed hg hentry hfit.wellFormed
  reached := h.reached hg hentry hfit.reached
  loopsMarked {b' blk'} hblk' := by
    obtain ⟨b, blk, hblk, rfl, hkind, -⟩ := h.exists_block hblk'
    have hb := lt_blockCount hblk
    have hloop : blk'.isLoop = blk.isLoop := by simp only [Block.isLoop, hkind]
    rw [hloop, hfit.loopsMarked hblk]
    constructor
    · rintro ⟨u, hu⟩
      exact ⟨β u, (h.mem_backedges_iff hg hentry (hg.arc_lt (arc_of_backedge hg hu)).1 hb).mpr hu⟩
    · rintro ⟨u', hu'⟩
      have hlt := ((h.sound hg).arc_lt (arc_of_backedge (h.sound hg) hu')).1
      obtain ⟨u, hu, rfl⟩ := h.block_surj (h.blockCount_eq ▸ hlt)
      exact ⟨u, (h.mem_backedges_iff hg hentry hu hb).mp hu'⟩

theorem inReversePostorder_iff : g'.InReversePostorder ↔
    ∀ u v, g.Arc u v → (⟨u, v⟩ ∈ g.backedges ↔ β v ≤ β u) := by
  constructor
  · intro hrpo u v harc
    obtain ⟨hu, hv⟩ := hg.arc_lt harc
    rw [← h.mem_backedges_iff hg hentry hu hv]
    refine hrpo _ _ ?_
    rw [Arc, h.successors_eq hg hu]
    exact List.mem_map_of_mem harc
  · intro hrpo u' v' harc'
    obtain ⟨u, hu, rfl⟩ := h.block_surj (h.blockCount_eq ▸ ((h.sound hg).arc_lt harc').1)
    rw [Arc, h.successors_eq hg hu, List.mem_map] at harc'
    obtain ⟨v, hv, rfl⟩ := harc'
    rw [h.mem_backedges_iff hg hentry hu (hg.target_lt hv)]
    exact hrpo u v hv

end Renamed

/-! ## The order stage

The order of a fit graph holds every block once, so renumbering by it goes through, and the problems
that can come up are those of the order. -/

theorem bound_eq_none (hg : g.Sound) (hwf : g.WellFormed) : g.bound = none := by
  cases hb : g.bound with
  | none => rfl
  | some b =>
    obtain ⟨blk, hblk⟩ := Graph.exists_block (hg.bound_lt hb)
    obtain ⟨i, op, hi, hop, hend⟩ := (hwf.terminated hblk).exists_last
    rw [← span_of_block hblk] at hi
    exact absurd hb (hg.ends (Span.last?_mem hi) hop hend).2

theorem no_arc_to_entry (hg : g.Sound) (hwf : g.WellFormed) (u : BlockIndex) : ¬g.Arc u 0 := by
  intro harc
  obtain ⟨blk, hblk⟩ := Graph.exists_block hwf.pos
  have hmem := hg.mem_predecessors_iff.mpr harc
  rw [(hwf.joined hblk).no_predecessors_iff.mpr rfl] at hmem
  cases hmem

private theorem reachable_of_fit (hg : g.Sound) (hfit : g.Fit) :
    ∀ b < g.blockCount, g.Reachable b :=
  fun b hb ↦ (mem_discovery_iff hg hfit.wellFormed.pos).mp (hfit.reached b hb)

/-- A graph without problems can be renumbered by its special reverse postorder. -/
theorem exists_reorder_specialOrder (hg : g.Sound) (hfit : g.Fit) :
    ∃ num g', g.numbering = .ok num ∧ g.reorder num.order = .ok g' ∧
      num.order.Perm (List.range g.blockCount) ∧ num.order.idxOf 0 = 0 := by
  obtain ⟨num, hnum, -, hperm, hhead, -⟩ := exists_numbering hg (reachable_of_fit hg hfit)
    (no_arc_to_entry hg hfit.wellFormed)
  have hreorder := reorder_of_perm hg (bound_eq_none hg hfit.wellFormed) hperm
    fun hop ↦ (hfit.wellFormed.referring hop).value_lt
  refine ⟨num, _, hnum, hreorder, hperm, ?_⟩
  have hblocks : g.blocks.isEmpty = false := by
    have := hfit.wellFormed.pos
    simp only [blockCount] at this
    simpa [Array.isEmpty_iff_size_eq_zero] using this.ne'
  rw [ entry?, hblocks, if_neg (by simp)] at hhead
  obtain ⟨rest, hrest⟩ := List.head?_eq_some_iff.mp hhead
  rw [hrest, List.idxOf_cons_self]

/-- Renumbering a graph without problems by its special reverse postorder succeeds and brings up
at most problems of order. There are none exactly if the order puts the backedges and only them
backward, and so there are none if the graph is reducible. -/
theorem problems_of_reorder {g : Graph} (hbuilt : g.Built) (hfit : g.problems false = []) :
    ∃ order g', g.specialOrder = .ok order ∧ g.reorder order = .ok g' ∧
      g'.problems false = [] ∧
      (g'.problems true = [] ↔
        ∀ u v, g.Arc u v → (⟨u, v⟩ ∈ g.backedges ↔ order.idxOf v ≤ order.idxOf u)) ∧
      ((∀ e ∈ g.backedges, g.Dominates e.header e.source) → g'.problems true = []) := by
  have hg := hbuilt.sound
  have hf := ((problems_eq_nil hg false).mp hfit).1
  obtain ⟨num, g', hnum, hreorder, hperm, hentry⟩ := exists_reorder_specialOrder hg hf
  have hren := reorder_renamed hg hreorder
  have hg' := hren.sound hg
  have hf' := hren.fit hg hentry hf
  have hspecial : g.specialOrder = .ok num.order := by rw [specialOrder, hnum, ok_bind]; rfl
  -- renumbering by an order puts backward what the order puts backward
  have hiff : g'.problems true = [] ↔
      ∀ u v, g.Arc u v → (⟨u, v⟩ ∈ g.backedges ↔ num.order.idxOf v ≤ num.order.idxOf u) := by
    rw [problems_eq_nil hg', ← hren.inReversePostorder_iff hg hentry]
    exact ⟨fun h ↦ h.2 rfl, fun h ↦ ⟨hf', fun _ ↦ h⟩⟩
  refine ⟨num.order, g', hspecial, hreorder, (problems_eq_nil hg' false).mpr ⟨hf', by simp⟩, hiff,
    fun hred ↦ hiff.mpr fun u v harc ↦ ?_⟩
  have hr : Layout.Regular g := ⟨hg, hf.reached, hred⟩
  have hentry' := no_arc_to_entry hg hf.wellFormed
  constructor
  · intro hback
    rcases backward_of_numbering hr hentry' hnum hback with heq | hlt
    · exact Nat.le_of_eq (congrArg num.order.idxOf heq)
    · exact Nat.le_of_lt hlt
  · intro hle
    by_contra hback
    exact absurd (forward_of_numbering hr hentry' hnum ⟨harc, hback⟩) (Nat.not_lt.mpr hle)

theorem problems_of_reorder_sampleLoop :
    ∃ order g', sampleLoop.specialOrder = .ok order ∧ sampleLoop.reorder order = .ok g' ∧
      g'.problems false = [] := by
  obtain ⟨order, g', horder, hreorder, hproblems, -, -⟩ := problems_of_reorder
    (Sketch.graph_built ⟨[[1], [2, 3], [1], []], [1]⟩ .empty rfl : sampleLoop.Built) (by decide)
  exact ⟨order, g', horder, hreorder, hproblems⟩

/-- Loops that overlap: the one of block 3 holds the header of the one of block 6 and leaves out
most of its other members. -/
def tangle : Graph :=
  ((Sketch.mk [[2, 1], [7], [3, 1], [6, 4], [5, 1], [6, 3], [5, 7], [2]] [2, 3, 6]).graph
    .empty).toOption.getD (.empty .empty)

/-- Overlapping loops can keep a graph out of reverse postorder. -/
theorem tangle_not_in_reversePostorder :
    tangle.Built ∧ tangle.problems false = [] ∧
      ∃ order g', tangle.specialOrder = .ok order ∧ tangle.reorder order = .ok g' ∧
        g'.problems true = [.notOrdered 7 5] := by
  refine ⟨Sketch.graph_built
    ⟨[[2, 1], [7], [3, 1], [6, 4], [5, 1], [6, 3], [5, 7], [2]], [2, 3, 6]⟩ .empty rfl,
    by decide +kernel, [0, 2, 3, 4, 6, 7, 5, 1], tangle.renumbered [0, 2, 3, 4, 6, 7, 5, 1],
    by decide +kernel, by decide +kernel, by decide +kernel⟩

end Graph

end Flowgraph
