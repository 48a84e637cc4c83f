import Flowgraph.Proofs.Graph.Renaming
import Mathlib.Data.List.Sort

/-!
# Graphs filled block by block

A graph is filled block by block: a block is bound, receives its operations and is closed by its
terminator before the next one is bound. Two orders follow from that. The operations stand in the
order in which their blocks were filled, and the edges stand in the order of the operations.
`FilledBy g l` says both, where `l` lists the blocks in the order in which they were filled.

Renumbering brings the operations into the order of the blocks but leaves the edges as they are. So
every renumbered graph is `Laid`, with the operations of each block right after those of the block
before, but its edges need not be `recordedEdges` any more. They still are if the blocks are
renumbered in the order in which they were filled.
-/

namespace Flowgraph.Graph

variable {g g' : Graph}

/-! ## Edges in the order of the operations

`recordedEdges` are the edges that the terminators of a graph would have if they had been added in
the order in which they stand. It depends on actions and owners only. -/

def edgesOf (l : List (Operation × BlockIndex)) : List Edge :=
  l.flatMap fun e ↦ e.1.successors.map (Edge.mk e.2)

/-- The edges that the terminators of a graph have, in the order of the operations. -/
def recordedEdges (g : Graph) : List Edge := edgesOf (g.ops.toList.zip g.owners.toList)

private theorem recordedEdges_appended (hsize : g.owners.size = g.ops.size) (b : BlockIndex)
    (op : Operation) :
    (g.appended b op).recordedEdges = g.recordedEdges ++ op.successors.map (Edge.mk b) := by
  rw [recordedEdges, appended, Array.toList_push, Array.toList_push,
    List.zip_append (by rw [Array.length_toList, Array.length_toList, hsize]), edgesOf,
    List.flatMap_append, recordedEdges, edgesOf]
  simp

theorem recordedEdges_congr
    (hactions : ∀ i : OpIndex, g'.ops[i]?.map Operation.action = g.ops[i]?.map Operation.action)
    (howners : g'.owners = g.owners) : g'.recordedEdges = g.recordedEdges := by
  have hall : g'.ops.toList.map Operation.action = g.ops.toList.map Operation.action := by
    refine List.ext_getElem? fun i ↦ ?_
    rw [List.getElem?_map, List.getElem?_map, Array.getElem?_toList, Array.getElem?_toList]
    exact hactions i
  have hread : ∀ (ops : List Operation) (owners : List BlockIndex),
      edgesOf (ops.zip owners) = edgesOf (((ops.map Operation.action).map (Operation.mk · [])).zip
        owners) := by
    intro ops owners
    rw [List.map_map, List.zip_map_left, edgesOf, edgesOf, List.flatMap_map]
    rfl
  rw [recordedEdges, recordedEdges, hread, hall, howners, ← hread]

/-- Adjusting a graph changes none of its terminators. -/
theorem Alike.recordedEdges_eq (h : Alike g g') : g'.recordedEdges = g.recordedEdges :=
  recordedEdges_congr h.actions h.owners

/-! ## Filling

Binding a block and adding operations to it go on with the last block of the list. Every listed
block is not empty, and it is closed unless it is the last one. -/

/-- The blocks that have operations are those of a list, in order, and the edges were recorded as
the operations came. -/
structure FilledBy (g : Graph) (filled : List BlockIndex) : Prop where
  sound : g.Sound
  edges_eq : g.edges.toList = g.recordedEdges
  ops_eq : g.opsOf filled = List.range g.opCount
  /-- A listed block has operations, unless it was bound just now. -/
  span_ne_nil : ∀ c ∈ filled, g.bound ≠ some c → (g.span c).toList ≠ []
  /-- The bound block is listed last and only there. -/
  bound_last : ∀ {c : BlockIndex}, g.bound = some c → ∃ init, filled = init ++ [c] ∧ c ∉ init

theorem filledBy_empty (name : ByteArray) : (Graph.empty name).FilledBy [] where
  sound := sound_empty name
  edges_eq := rfl
  ops_eq := rfl
  span_ne_nil := nofun
  bound_last := nofun

theorem opsOf_congr {l : List BlockIndex} (h : ∀ b ∈ l, g'.span b = g.span b) :
    g'.opsOf l = g.opsOf l := by
  rw [opsOf, opsOf]
  exact List.flatMap_congr fun b hb ↦ by rw [h b hb]

namespace FilledBy

variable {filled : List BlockIndex} (h : g.FilledBy filled)

include h

theorem addBlock {kind : BlockKind} {deferred : Bool} (hadd : g.addBlock kind deferred = .ok g') :
    g'.FilledBy filled := by
  have hsound := h.sound.addBlock hadd
  obtain ⟨-, rfl⟩ := addBlock_eq_ok hadd
  have hspan := span_push_empty g kind deferred
  exact {
    sound := hsound
    edges_eq := h.edges_eq
    ops_eq := (opsOf_congr fun b _ ↦ hspan b).trans h.ops_eq
    span_ne_nil := fun c hc hb ↦ by rw [hspan]; exact h.span_ne_nil c hc hb
    bound_last := h.bound_last }

theorem bind {c : BlockIndex} (hbind : g.bind c = .ok g') : g'.FilledBy (filled ++ [c]) := by
  have hsound := h.sound.bind hbind
  obtain ⟨hbound, ⟨blk, hblk, hspan⟩, rfl⟩ := bind_eq_ok hbind
  have hempty : (g.span c).toList = [] := by
    rw [span_of_block hblk, Block.span, hspan]
    rfl
  -- every listed block was closed before, so that a block without operations is not among them
  have hnew : c ∉ filled := fun hc ↦ h.span_ne_nil c hc (by rw [hbound]; simp) hempty
  exact {
    sound := hsound
    edges_eq := h.edges_eq
    ops_eq := by
      change g.opsOf (filled ++ [c]) = _
      rw [opsOf, List.flatMap_append, ← opsOf, h.ops_eq, List.flatMap_singleton, hempty,
        List.append_nil]
      rfl
    span_ne_nil := by
      intro d hd hne
      rcases List.mem_append.mp hd with hd | hd
      · exact h.span_ne_nil d hd (by rw [hbound]; simp)
      · rw [List.mem_singleton.mp hd] at hne
        exact absurd rfl hne
    bound_last := by
      rintro d ⟨⟩
      exact ⟨filled, rfl, hnew⟩ }

theorem addOperation {op : Operation} (hadd : g.addOperation op = .ok g') :
    g'.FilledBy filled := by
  have hsound := h.sound.addOperation hadd
  obtain ⟨b, hb, -, -, rfl⟩ := addOperation_eq_ok hadd
  -- the open block was filled last, and it is filled no more than once
  obtain ⟨init, rfl, hinit⟩ := h.bound_last hb
  have hself := appended_span_toList_self op h.sound hb
  have hothers : (g.appended b op).opsOf init = g.opsOf init :=
    opsOf_congr fun c hc ↦ appended_span_of_ne fun heq ↦ hinit (heq ▸ hc)
  exact {
    sound := hsound
    edges_eq := by
      rw [recordedEdges_appended h.sound.owners_size, ← h.edges_eq]
      simp [appended]
    ops_eq := by
      have hops := h.ops_eq
      rw [opsOf, List.flatMap_append, List.flatMap_singleton, ← opsOf] at hops ⊢
      rw [hothers, hself, ← List.append_assoc, hops, appended_opCount, List.range_succ]
    span_ne_nil := by
      intro c hc hne
      by_cases hcb : c = b
      · rw [hcb, hself]
        simp
      · rw [appended_span_of_ne hcb]
        exact h.span_ne_nil c hc (by rw [hb]; exact fun heq ↦ hcb (Option.some.inj heq).symm)
    bound_last := by
      intro c hc
      rw [appended] at hc
      cases hend : op.isTerminator with
      | true => simp [hend] at hc
      | false =>
        have : b = c := by simpa [hend] using hc
        rw [← this]
        exact ⟨init, rfl, hinit⟩ }

theorem alike (halike : Alike g g') : g'.FilledBy filled where
  sound := halike.sound h.sound
  edges_eq := by rw [halike.edges, halike.recordedEdges_eq, h.edges_eq]
  ops_eq := by rw [opsOf_congr fun b _ ↦ halike.span_eq b, halike.opCount_eq, h.ops_eq]
  span_ne_nil c hc hb := by
    rw [halike.bound] at hb
    rw [halike.span_eq]
    exact h.span_ne_nil c hc hb
  bound_last hb := by
    rw [halike.bound] at hb
    exact h.bound_last hb

theorem isSome_span (hb : g.bound = none) {b : BlockIndex} (hmem : b ∈ filled) {blk : Block}
    (hblk : g.blocks[b]? = some blk) : blk.span?.isSome := by
  have hne := h.span_ne_nil b hmem (by rw [hb]; nofun)
  rw [span_of_block hblk, Block.span] at hne
  cases hs : blk.span? with
  | none => simp [hs] at hne
  | some s => rfl

end FilledBy

theorem FilledBy.addOperations {filled : List BlockIndex} (h : g.FilledBy filled)
    {ops : List Operation} (hadd : g.addOperations ops = .ok g') : g'.FilledBy filled :=
  foldlM_keeps (P := (FilledBy · filled)) (fun h hadd ↦ h.addOperation hadd) h hadd

/-! ## Operations in the order of the blocks

In a laid graph the operations of block `b` are those from `offset b` on. Owners rise with the
operations, and so the predecessors of a block rise as well if the edges are in order. -/

/-- Every block has operations, right after those of the block before. -/
structure Laid (g : Graph) : Prop where
  ops_eq : g.opsOf (List.range g.blockCount) = List.range g.opCount
  isSome_span : ∀ {b : BlockIndex} {blk : Block}, g.blocks[b]? = some blk → blk.span?.isSome

/-- The number of operations in front of a block. -/
def offset (g : Graph) (b : BlockIndex) : Nat := (g.opsOf (List.range b)).length

theorem opsOf_range_succ (g : Graph) (b : BlockIndex) :
    g.opsOf (List.range (b + 1)) = g.opsOf (List.range b) ++ (g.span b).toList := by
  rw [opsOf, List.range_succ, List.flatMap_append, List.flatMap_singleton, opsOf]

theorem offset_succ (g : Graph) (b : BlockIndex) :
    g.offset (b + 1) = g.offset b + (g.span b).length := by
  rw [offset, opsOf_range_succ, List.length_append, Span.length_toList, offset]

theorem FilledBy.laid (h : g.FilledBy (List.range g.blockCount)) (hb : g.bound = none) :
    g.Laid where
  ops_eq := h.ops_eq
  isSome_span hblk := h.isSome_span hb (List.mem_range.mpr (lt_blockCount hblk)) hblk

theorem Alike.laid (h : Alike g g') (hg : g.Laid) : g'.Laid where
  ops_eq := by rw [h.blockCount_eq, opsOf_congr fun b _ ↦ h.span_eq b, h.opCount_eq, hg.ops_eq]
  isSome_span {b blk'} hblk' := by
    have hspans := h.spans b
    rw [hblk', Option.map_some, eq_comm, Option.map_eq_some_iff] at hspans
    obtain ⟨blk, hblk, heq⟩ := hspans
    rw [← heq]
    exact hg.isSome_span hblk

private theorem flatMap_span_successors (hg : g.Sound) (b : BlockIndex) :
    (g.span b).toList.flatMap (fun i ↦ (g.ops[i]?.getD .dead).successors) = g.successors b := by
  cases hterm : g.terminator? b with
  | none =>
    have hnil := Span.last?_eq_none.mp hterm
    rw [hnil, List.flatMap_nil, successors_of_empty hnil]
  | some t =>
    have hspan := Span.toList_eq_append_last hterm
    obtain ⟨op, hop⟩ := exists_op (hg.lt_of_mem_span (Span.last?_mem hterm))
    have hnd := (g.span b).nodup_toList
    rw [hspan] at hnd ⊢
    rw [List.flatMap_append, List.flatMap_singleton, hop, Option.getD_some,
      successors_of_terminator hterm hop, List.flatMap_eq_nil_iff.mpr, List.nil_append]
    intro i hi
    have hmem : i ∈ (g.span b).toList := hspan ▸ List.mem_append_left _ hi
    obtain ⟨op', hop'⟩ := exists_op (hg.lt_of_mem_span hmem)
    rw [hop', Option.getD_some]
    refine Operation.successors_eq_nil ?_
    by_contra hend
    have hlast := (hg.ends hmem hop' (by simpa using hend)).1
    cases hterm.symm.trans hlast
    exact (List.disjoint_of_nodup_append hnd) hi (List.mem_singleton_self t)

namespace Laid

variable (hg : g.Sound) (h : g.Laid)

include h

theorem offset_blockCount : g.offset g.blockCount = g.opCount := by
  rw [offset, h.ops_eq, List.length_range]

private theorem opsOf_range {b : BlockIndex} (hb : b ≤ g.blockCount) :
    g.opsOf (List.range b) = List.range (g.offset b) := by
  obtain ⟨k, hk⟩ := Nat.exists_eq_add_of_le hb
  have hsplit : g.opsOf (List.range b) ++ g.opsOf (List.range' b k) = List.range g.opCount := by
    rw [← h.ops_eq, hk, List.range_add, opsOf, opsOf, opsOf, List.flatMap_append,
      List.range'_eq_map_range]
  have htake := congrArg (List.take (g.offset b)) hsplit
  rw [offset, List.take_left, List.take_range] at htake
  have hlen := congrArg List.length htake
  rw [List.length_range] at hlen
  rw [htake, ← hlen, offset]

include hg in
/-- The span of a block, read off the numbers of operations. -/
theorem span_eq {b : BlockIndex} {blk : Block} (hblk : g.blocks[b]? = some blk) :
    blk.span? = some ⟨g.offset b, g.offset (b + 1)⟩ := by
  obtain ⟨s, hs⟩ := Option.isSome_iff_exists.mp (h.isSome_span hblk)
  have hpos := hg.span_pos hblk hs
  have hspan : g.span b = s := by rw [span_of_block hblk, Block.span, hs, Option.getD_some]
  have hops := h.opsOf_range (Nat.succ_le_of_lt (lt_blockCount hblk))
  have hfirst := congrArg (·[g.offset b]?) hops
  simp only [opsOf_range_succ, offset_succ, hspan] at hfirst
  rw [offset, List.getElem?_append_right (Nat.le_refl _), Nat.sub_self, ← offset, Span.toList,
    List.getElem?_range' (by simp only [Span.length]; lia),
    List.getElem?_range (by simp only [Span.length]; lia), Option.some.injEq] at hfirst
  have hstop : g.offset (b + 1) = s.stop := by
    rw [offset_succ, hspan, Span.length]
    lia
  rw [hs, hstop]
  congr 1
  obtain ⟨first, stop⟩ := s
  simp_all

omit h in
private theorem offset_mono (g : Graph) {b c : BlockIndex} (hbc : b ≤ c) :
    g.offset b ≤ g.offset c := by
  induction c, hbc using Nat.le_induction with
  | base => exact Nat.le_refl _
  | succ c _ ih =>
    rw [offset_succ]
    exact ih.trans (Nat.le_add_right _ _)

include hg in
/-- Later operations belong to later blocks. -/
theorem pairwise_owners : g.owners.toList.Pairwise (· ≤ ·) := by
  rw [List.pairwise_iff_getElem]
  intro i j hi hj hij
  have hspan : ∀ {k : Nat} (hk : k < g.owners.toList.length),
      g.offset g.owners.toList[k] ≤ k ∧ k < g.offset (g.owners.toList[k] + 1) := by
    intro k hk
    have hmem : k ∈ (g.span g.owners.toList[k]).toList := by
      rw [hg.mem_span_iff, ← Array.getElem?_toList, List.getElem?_eq_getElem hk]
    obtain ⟨blk, hblk⟩ := exists_block (lt_blockCount_of_mem_span hmem)
    rwa [span_of_block hblk, Block.span, h.span_eq hg hblk, Span.mem_toList] at hmem
  have hle := (hspan hi).1
  have hlt := (hspan hj).2
  by_contra hlater
  have := offset_mono g (Nat.succ_le_of_lt (Nat.not_le.mp hlater))
  lia

include hg in
theorem block_le {i j : OpIndex} {b c : BlockIndex} (hi : i ∈ (g.span b).toList)
    (hj : j ∈ (g.span c).toList) (hij : i ≤ j) : b ≤ c := by
  rcases Nat.eq_or_lt_of_le hij with rfl | hlt
  · exact Nat.le_of_eq (hg.span_disjoint hi hj)
  · rw [hg.mem_span_iff, ← Array.getElem?_toList] at hi hj
    obtain ⟨hi', rfl⟩ := List.getElem?_eq_some_iff.mp hi
    obtain ⟨hj', rfl⟩ := List.getElem?_eq_some_iff.mp hj
    exact List.pairwise_iff_getElem.mp (h.pairwise_owners hg) i j hi' hj' hlt

include hg in
/-- If the edges are in the order of the operations, predecessors come in ascending order. -/
theorem pairwise_predecessors (hedges : g.edges.toList = g.recordedEdges) (b : BlockIndex) :
    (g.predecessors b).Pairwise (· ≤ ·) := by
  have hzip : (g.ops.toList.zip g.owners.toList).Pairwise (fun e e' ↦ e.2 ≤ e'.2) := by
    rw [← List.pairwise_map (R := (· ≤ ·)), List.map_snd_zip (by simp [hg.owners_size])]
    exact h.pairwise_owners hg
  have hsources : g.edges.toList.Pairwise (fun e e' ↦ e.source ≤ e'.source) := by
    rw [hedges, recordedEdges, edgesOf, List.pairwise_flatMap]
    constructor
    · intro e _
      rw [List.pairwise_map]
      exact List.pairwise_of_forall fun _ _ ↦ Nat.le_refl _
    · refine hzip.imp fun {e e'} hle x hx y hy ↦ ?_
      obtain ⟨t, -, rfl⟩ := List.mem_map.mp hx
      obtain ⟨t', -, rfl⟩ := List.mem_map.mp hy
      exact hle
  rw [predecessors, List.pairwise_map]
  exact hsources.filter _

include hg in
/-- The edges in the order of the operations are in the order of the blocks that they come from. -/
theorem recordedEdges_eq : g.recordedEdges =
    (List.range g.blockCount).flatMap fun b ↦ (g.successors b).map (Edge.mk b) := by
  have hzip : g.ops.toList.zip g.owners.toList = (g.opsOf (List.range g.blockCount)).map
      fun i ↦ (g.ops[i]?.getD .dead, g.owners[i]?.getD 0) := by
    rw [h.ops_eq]
    refine List.ext_getElem (by simp [hg.owners_size, opCount]) fun i hi hi' ↦ ?_
    have hlt : i < g.ops.size := by simpa [opCount] using hi'
    simp [hlt, hg.owners_size]
  rw [recordedEdges, hzip, edgesOf, List.flatMap_map, opsOf, List.flatMap_assoc]
  refine List.flatMap_congr fun b _ ↦ ?_
  rw [← flatMap_span_successors hg b, List.map_flatMap]
  refine List.flatMap_congr fun i hi ↦ ?_
  rw [(hg.mem_span_iff i b).mp hi, Option.getD_some]

end Laid

/-! ## Renumbering

The renumbered graph is laid whatever the permutation. Its edges are in the order of its operations
if the permutation is the order in which the blocks were filled. -/

theorem map_idxOf_self {l : List Nat} (hnd : l.Nodup) : l.map l.idxOf = List.range l.length := by
  refine List.ext_getElem (by simp) fun n hn _ ↦ ?_
  rw [List.getElem_map, List.getElem_range]
  exact hnd.idxOf_getElem n (by simpa using hn)

/-- The operations of renamed blocks are the renamed operations, in the same order. -/
theorem Renamed.opsOf_eq {β : BlockIndex → BlockIndex} {ω : OpIndex → OpIndex}
    (h : Renamed g g' β ω) {l : List BlockIndex} (hl : ∀ b ∈ l, b < g.blockCount) :
    g'.opsOf (l.map β) = (g.opsOf l).map ω := by
  rw [opsOf, List.flatMap_map, opsOf, List.map_flatMap]
  exact List.flatMap_congr fun b hb ↦ h.span (hl b hb)

/-- Renumbering numbers the operations in the new order of the blocks. -/
theorem opsOf_range_of_reorder {perm : List BlockIndex} (hg : g.Sound)
    (h : g.reorder perm = .ok g') :
    g'.opsOf (List.range g'.blockCount) = List.range g'.opCount := by
  obtain ⟨-, hperm, -⟩ := of_reorder_ok hg h
  have hren := reorder_renamed hg h
  have hnd : perm.Nodup := hperm.nodup_iff.mpr List.nodup_range
  have hblocks : List.range g'.blockCount = perm.map perm.idxOf := by
    rw [map_idxOf_self hnd, hperm.length_eq, List.length_range, hren.blockCount_eq]
  rw [hblocks, hren.opsOf_eq fun b hb ↦ List.mem_range.mp (hperm.mem_iff.mp hb),
    map_idxOf_self (nodup_opsOf hg hnd), (opsOf_perm hg hperm).length_eq, List.length_range,
    hren.opCount_eq]

/-- Renumbering lays the operations in the new order of the blocks. -/
theorem reorder_laid {perm : List BlockIndex} (hg : g.Sound)
    (hsome : ∀ {b : BlockIndex} {blk : Block}, g.blocks[b]? = some blk → blk.span?.isSome)
    (h : g.reorder perm = .ok g') : g'.Laid := by
  have hren := reorder_renamed hg h
  constructor
  · exact opsOf_range_of_reorder hg h
  · intro c blk' hblk'
    obtain ⟨b, hb, rfl⟩ := hren.block_surj (hren.blockCount_eq ▸ lt_blockCount hblk')
    obtain ⟨blk, hblk⟩ := exists_block hb
    obtain ⟨blk'', hblk'', -, -, hspan⟩ := hren.block hblk
    cases hblk''.symm.trans hblk'
    rw [hspan]
    exact hsome hblk

/-- Every operation stands in its place. -/
theorem FilledBy.idxOf_opsOf {filled : List BlockIndex} (hg : g.FilledBy filled) {i : OpIndex}
    (hi : i < g.opCount) : (g.opsOf filled).idxOf i = i := by
  have hlt : i < (List.range g.opCount).length := by rwa [List.length_range]
  have hidx := List.nodup_range.idxOf_getElem i hlt
  rwa [List.getElem_range, ← hg.ops_eq] at hidx

/-- Renumbering the blocks in the order in which they were filled keeps every operation in its
place, and with them the edges. -/
theorem FilledBy.reorder {perm : List BlockIndex} (hg : g.FilledBy perm)
    (h : g.reorder perm = .ok g') : g'.edges.toList = g'.recordedEdges := by
  have hren := reorder_renamed hg.sound h
  have hops : g'.ops.toList
      = g.ops.toList.map (·.renamed perm.idxOf (g.opsOf perm).idxOf) := by
    refine List.ext_getElem (by simpa [opCount] using hren.opCount_eq) fun i hi hi' ↦ ?_
    have hlt : i < g.opCount := by simpa [opCount] using hi'
    have hop := hren.op (Array.getElem?_eq_getElem hlt)
    rw [hg.idxOf_opsOf hlt] at hop
    rw [List.getElem_map, Array.getElem_toList, Array.getElem_toList]
    exact (Array.getElem?_eq_some_iff.mp hop).2
  have howners : g'.owners.toList = g.owners.toList.map perm.idxOf := by
    refine List.ext_getElem ?_ fun i hi hi' ↦ ?_
    · rw [List.length_map, Array.length_toList, Array.length_toList, hren.owners_size,
        hg.sound.owners_size]
      exact hren.opCount_eq
    · have hlt : i < g.owners.size := by simpa using hi'
      have hown := hren.owner (Array.getElem?_eq_getElem hlt)
      rw [hg.idxOf_opsOf (by rw [opCount, ← hg.sound.owners_size]; exact hlt)] at hown
      rw [List.getElem_map, Array.getElem_toList, Array.getElem_toList]
      exact (Array.getElem?_eq_some_iff.mp hown).2
  rw [hren.edges, hg.edges_eq, recordedEdges, recordedEdges, hops, howners, List.zip_map, edgesOf,
    edgesOf, List.map_flatMap, List.flatMap_map]
  refine List.flatMap_congr fun e _ ↦ ?_
  simp [Operation.renamed_successors]

end Flowgraph.Graph
