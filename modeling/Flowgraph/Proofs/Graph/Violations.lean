import Flowgraph.Graph.Violation
import Flowgraph.Proofs.Graph.Renaming
import Mathlib.Data.List.Induction

/-!
# Violations under other names

The structural rules speak of blocks and operations by number, but none of them depends on what
the numbers are, with one exception: the first block is the entry. Renaming a graph so that the
entry stays the first block renames its violations and neither adds nor removes any.

The list of violations follows the numbers of the blocks and of the operations, so that the
violations of the two graphs agree as multisets only.
-/

namespace Flowgraph

/-- A violation under other names. A reference that leads nowhere has no new name. -/
def Violation.renamed (v : Violation) (β : BlockIndex → BlockIndex) (ω : OpIndex → OpIndex) :
    Violation :=
  match v with
  | .noBlocks name => .noBlocks name
  | .emptyBlock b => .emptyBlock (β b)
  | .misplacedTerminator b i => .misplacedTerminator (β b) (ω i)
  | .unterminated b => .unterminated (β b)
  | .missingInput i j input => .missingInput (ω i) j input
  | .missingTarget i t => .missingTarget (ω i) t
  | .conditionCount i n => .conditionCount (ω i) n
  | .missingTrueTarget i t => .missingTrueTarget (ω i) t
  | .missingFalseTarget i t => .missingFalseTarget (ω i) t
  | .entryKind k => .entryKind k
  | .entryPredecessors n => .entryPredecessors n
  | .secondEntry b => .secondEntry (β b)
  | .noPredecessors b => .noPredecessors (β b)
  | .plainPredecessors b n => .plainPredecessors (β b) n
  | .strayPhi b i k => .strayPhi (β b) (ω i) k
  | .phiArity b i m n => .phiArity (β b) (ω i) m n

/-- A list walked with its positions, as a walk through the positions. -/
theorem flatMap_zipIdx {α γ : Type} (l : List α) (f : α × Nat → List γ) :
    l.zipIdx.flatMap f
      = (List.range l.length).flatMap fun k ↦ l[k]?.toList.flatMap fun a ↦ f (a, k) := by
  induction l using List.reverseRecOn with
  | nil => rfl
  | append_singleton l a ih =>
    have hold : ∀ k ∈ List.range l.length, (l ++ [a])[k]? = l[k]? := fun k hk ↦
      List.getElem?_append_left (List.mem_range.mp hk)
    rw [List.zipIdx_append, List.flatMap_append, ih, List.length_append, List.length_singleton,
      List.range_succ, List.flatMap_append]
    congr 1
    · exact List.flatMap_congr fun k hk ↦ by rw [hold k hk]
    · simp

namespace Graph

variable {g g' : Graph} {β : BlockIndex → BlockIndex} {ω : OpIndex → OpIndex}

namespace Renamed

variable (h : Renamed g g' β ω) (hg : g.Sound)

include h

theorem range_perm_blocks : ((List.range g.blockCount).map β).Perm (List.range g'.blockCount) := by
  rw [List.perm_ext_iff_of_nodup (List.nodup_range.map_on fun b hb c hc ↦
    h.block_inj (List.mem_range.mp hb) (List.mem_range.mp hc)) List.nodup_range]
  intro c
  simp only [List.mem_map, List.mem_range, h.blockCount_eq]
  exact ⟨fun ⟨b, hb, heq⟩ ↦ heq ▸ h.block_lt hb, fun hc ↦ h.block_surj hc⟩

theorem range_perm_ops : ((List.range g.opCount).map ω).Perm (List.range g'.opCount) := by
  rw [List.perm_ext_iff_of_nodup (List.nodup_range.map_on fun i hi j hj ↦
    h.op_inj (List.mem_range.mp hi) (List.mem_range.mp hj)) List.nodup_range]
  intro j
  simp only [List.mem_map, List.mem_range, h.opCount_eq]
  exact ⟨fun ⟨i, hi, heq⟩ ↦ heq ▸ h.op_lt hi, fun hj ↦ h.op_surj hj⟩

private theorem flatMap_blocks_perm {f f' : BlockIndex → Block → List Violation}
    (hf : ∀ {b : BlockIndex} {blk blk' : Block}, g.blocks[b]? = some blk →
      g'.blocks[β b]? = some blk' → f' (β b) blk' = (f b blk).map (·.renamed β ω)) :
    (g'.blocks.toList.zipIdx.flatMap fun (blk, b) ↦ f' b blk).Perm
      ((g.blocks.toList.zipIdx.flatMap fun (blk, b) ↦ f b blk).map (·.renamed β ω)) := by
  rw [flatMap_zipIdx, flatMap_zipIdx]
  simp only [Array.length_toList, Array.getElem?_toList]
  refine (h.range_perm_blocks.symm.flatMap_right _).trans (.of_eq ?_)
  rw [List.flatMap_map, List.map_flatMap]
  refine List.flatMap_congr fun b hb ↦ ?_
  obtain ⟨blk, hblk⟩ := Graph.exists_block (List.mem_range.mp hb)
  obtain ⟨blk', hblk', -, -, -⟩ := h.block hblk
  simp [hblk, hblk', hf hblk hblk']

private theorem flatMap_ops_perm {f f' : OpIndex → Operation → List Violation}
    (hf : ∀ {i : OpIndex} {op : Operation}, g.ops[i]? = some op →
      f' (ω i) (op.renamed β ω) = (f i op).map (·.renamed β ω)) :
    (g'.ops.toList.zipIdx.flatMap fun (op, i) ↦ f' i op).Perm
      ((g.ops.toList.zipIdx.flatMap fun (op, i) ↦ f i op).map (·.renamed β ω)) := by
  rw [flatMap_zipIdx, flatMap_zipIdx]
  simp only [Array.length_toList, Array.getElem?_toList]
  refine (h.range_perm_ops.symm.flatMap_right _).trans (.of_eq ?_)
  rw [List.flatMap_map, List.map_flatMap]
  refine List.flatMap_congr fun i hi ↦ ?_
  obtain ⟨op, hop⟩ := Graph.exists_op (List.mem_range.mp hi)
  simp [hop, h.op hop, hf hop]

theorem blockOps_eq {blk blk' : Block} (hspan : blk'.span.toList = blk.span.toList.map ω)
    (hlt : ∀ i ∈ blk.span.toList, i < g.opCount) :
    g'.blockOps blk' = (g.blockOps blk).map fun (i, op) ↦ (ω i, op.renamed β ω) := by
  rw [blockOps, blockOps, hspan, List.filterMap_map, List.map_filterMap]
  refine List.filterMap_congr fun i hi ↦ ?_
  obtain ⟨op, hop⟩ := Graph.exists_op (hlt i hi)
  simp [hop, h.op hop]

private theorem terminatorViolations_eq {b : BlockIndex} {blk blk' : Block}
    (hspan : blk'.span.toList = blk.span.toList.map ω)
    (hlt : ∀ i ∈ blk.span.toList, i < g.opCount) :
    g'.terminatorViolations (β b) blk' = (g.terminatorViolations b blk).map (·.renamed β ω) := by
  have hlast : blk'.span.last? = blk.span.last?.map ω := by
    rw [Span.last?_eq_getLast?, Span.last?_eq_getLast?, hspan, List.getLast?_map]
  rw [terminatorViolations, terminatorViolations, hlast, h.blockOps_eq hspan hlt]
  cases hl : blk.span.last? with
  | none => rfl
  | some last =>
    have hlastlt := hlt last (Span.last?_mem hl)
    obtain ⟨op, hop⟩ := Graph.exists_op hlastlt
    simp only [Option.map_some, h.op hop, hop, Operation.renamed_isTerminator, List.map_append]
    congr 1
    · rw [List.filterMap_map, List.map_filterMap]
      refine List.filterMap_congr fun ⟨i, op⟩ hmem ↦ ?_
      have hi : i ∈ blk.span.toList := by
        obtain ⟨j, hj, heq⟩ := List.mem_filterMap.mp hmem
        obtain ⟨op', -, heq⟩ := Option.map_eq_some_iff.mp heq
        exact (Prod.mk.inj heq).1 ▸ hj
      have hne : ω i ≠ ω last ↔ i ≠ last :=
        not_congr ⟨h.op_inj (hlt i hi) hlastlt, congrArg ω⟩
      simp only [Function.comp_apply, Operation.renamed_isTerminator, hne]
      split <;> rfl
    · cases op.isTerminator <;> rfl

private theorem phiViolations_eq (hg : g.Sound) {b : BlockIndex} {blk blk' : Block}
    (hb : b < g.blockCount) (hkind : blk'.kind = blk.kind)
    (hspan : blk'.span.toList = blk.span.toList.map ω)
    (hlt : ∀ i ∈ blk.span.toList, i < g.opCount) :
    g'.phiViolations (β b) blk' = (g.phiViolations b blk).map (·.renamed β ω) := by
  have hloop : (blk'.isLoop || blk'.isMerge) = (blk.isLoop || blk.isMerge) := by
    simp only [Block.isLoop, Block.isMerge, hkind]
  rw [phiViolations, phiViolations, h.blockOps_eq hspan hlt, List.filterMap_map,
    List.map_filterMap, h.predecessors_eq hg hb, List.length_map, hkind]
  refine List.filterMap_congr fun ⟨i, op⟩ _ ↦ ?_
  simp only [Function.comp_apply, Operation.renamed_isPhi, hloop, Operation.renamed_inputs,
    List.length_map]
  split_ifs <;> rfl

private theorem referenceViolations_eq {i : OpIndex} {op : Operation}
    (hvalues : ∀ j ∈ op.inputs, j < g.opCount) (htargets : ∀ t ∈ op.successors, t < g.blockCount) :
    g'.referenceViolations (ω i) (op.renamed β ω)
      = (g.referenceViolations i op).map (·.renamed β ω) := by
  have htarget : ∀ t ∈ op.successors, β t < g'.blockCount := fun t ht ↦
    h.blockCount_eq ▸ h.block_lt (htargets t ht)
  rw [referenceViolations, referenceViolations,
    List.filterMap_eq_nil_iff.mpr fun e hmem ↦ ?missing',
    List.filterMap_eq_nil_iff.mpr fun e hmem ↦ ?missing, List.nil_append, List.nil_append]
  case missing => exact if_pos (hvalues e.1 (List.fst_mem_of_mem_zipIdx hmem))
  case missing' =>
    obtain ⟨j, hj, heq⟩ := List.mem_map.mp (List.fst_mem_of_mem_zipIdx hmem)
    exact if_pos (heq ▸ h.opCount_eq ▸ h.op_lt (hvalues j hj))
  obtain ⟨action, inputs⟩ := op
  cases action with
  | goto t =>
    have ht : t ∈ (Operation.mk (.goto t) inputs).successors := by simp [Operation.successors]
    simp [Operation.renamed, Action.renamed, htargets t ht, htarget t ht]
  | branch t f hint =>
    have ht : t ∈ (Operation.mk (.branch t f hint) inputs).successors := by
      simp [Operation.successors]
    have hf : f ∈ (Operation.mk (.branch t f hint) inputs).successors := by
      simp [Operation.successors]
    simp only [Operation.renamed, Action.renamed, htargets t ht, htarget t ht, htargets f hf,
      htarget f hf, if_true, List.append_nil, List.length_map]
    split <;> rfl
  | _ => rfl

private theorem predecessorViolations_eq (hg : g.Sound) (hentry : 0 < g.blockCount → β 0 = 0)
    {b : BlockIndex} {blk blk' : Block} (hb : b < g.blockCount) (hkind : blk'.kind = blk.kind) :
    g'.predecessorViolations (β b) blk'
      = (g.predecessorViolations b blk).map (·.renamed β ω) := by
  have hpos : 0 < g.blockCount := Nat.zero_lt_of_lt hb
  have hzero : β b = 0 ↔ b = 0 :=
    ⟨fun heq ↦ h.block_inj hb hpos (heq.trans (hentry hpos).symm), fun heq ↦ heq ▸ hentry hpos⟩
  simp only [predecessorViolations, h.predecessors_eq hg hb, List.length_map, hkind, hzero]
  split_ifs <;> rfl

include hg

/-- Under other names a graph has the same violations, if its entry stays the first block and no
operation takes a value that does not exist. -/
theorem violations_perm (hentry : 0 < g.blockCount → β 0 = 0) (hvalues : g.ValuesExist) :
    g'.violations.Perm (g.violations.map (·.renamed β ω)) := by
  rw [violations, violations, h.blockCount_eq]
  split
  · rw [h.name_eq]
    exact .refl _
  · have hspan : ∀ {b : BlockIndex} {blk blk' : Block}, g.blocks[b]? = some blk →
        g'.blocks[β b]? = some blk' → blk'.span.toList = blk.span.toList.map ω :=
      fun hblk hblk' ↦ by
        rw [← span_of_block hblk', ← span_of_block hblk]
        exact h.span (lt_blockCount hblk)
    have hlt : ∀ {b : BlockIndex} {blk : Block}, g.blocks[b]? = some blk →
        ∀ i ∈ blk.span.toList, i < g.opCount := fun hblk i hi ↦
      hg.lt_of_mem_span (span_of_block hblk ▸ hi)
    have hkind : ∀ {b : BlockIndex} {blk blk' : Block}, g.blocks[b]? = some blk →
        g'.blocks[β b]? = some blk' → blk'.kind = blk.kind := fun hblk hblk' ↦ by
      obtain ⟨blk'', hblk'', hkind, -⟩ := h.block hblk
      rwa [Option.some.inj (hblk''.symm.trans hblk')] at hkind
    simp only [List.map_append]
    refine List.Perm.append (.append (.append ?_ ?_) ?_) ?_
    · exact h.flatMap_blocks_perm fun hblk hblk' ↦
        h.terminatorViolations_eq (hspan hblk hblk') (hlt hblk)
    · exact h.flatMap_ops_perm fun hop ↦
        h.referenceViolations_eq (hvalues hop) fun t ht ↦ hg.successor_lt hop ht
    · exact h.flatMap_blocks_perm fun hblk hblk' ↦
        h.predecessorViolations_eq hg hentry (lt_blockCount hblk) (hkind hblk hblk')
    · exact h.flatMap_blocks_perm fun hblk hblk' ↦
        h.phiViolations_eq hg (lt_blockCount hblk) (hkind hblk hblk') (hspan hblk hblk') (hlt hblk)

end Renamed

end Graph

end Flowgraph
