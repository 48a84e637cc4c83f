import Flowgraph.Proofs.Graph.Filling

/-!
# Building a graph a second time

A graph whose operations stand in the order of its blocks can be built again from its parts: first
the blocks, all of them empty, and then the operations block by block. `firstOps g n` is what has
been built when the first `n` operations are in place. Each operation takes it one step further, and
what stands at the end is `restored g`: the same graph, but with its edges in the order of the
operations.

## What is lost

Only the order of the edges can differ. The predecessors of a block of `restored g` are those that
the block has in `g`, sorted.
-/

namespace Flowgraph

/-- A block with what of its span lies before operation `n`. -/
def Block.upTo (blk : Block) (n : OpIndex) : Block :=
  { blk with span? := blk.span?.bind fun s ↦
      if s.first < n then some ⟨s.first, min s.stop n⟩ else none }

namespace Graph

variable {g : Graph}

/-- The graph with its edges in the order of its operations. -/
def restored (g : Graph) : Graph := { g with edges := g.recordedEdges.toArray }

/-- The first `n` operations of a graph in its blocks, while block `bound` receives operations. -/
def firstOps (g : Graph) (n : Nat) (bound : Option BlockIndex) : Graph where
  name := g.name
  ops := (g.ops.toList.take n).toArray
  owners := (g.owners.toList.take n).toArray
  blocks := (g.blocks.toList.map (·.upTo n)).toArray
  edges := (edgesOf ((g.ops.toList.zip g.owners.toList).take n)).toArray
  bound

def opsIn (g : Graph) (b : BlockIndex) : List Operation :=
  (g.span b).toList.filterMap (g.ops[·]?)

private theorem firstOps_blockCount (n : Nat) (bound : Option BlockIndex) :
    (g.firstOps n bound).blockCount = g.blockCount := by
  simp [firstOps, blockCount]

theorem firstOps_opCount {n : Nat} (hn : n ≤ g.opCount) (bound : Option BlockIndex) :
    (g.firstOps n bound).opCount = n := by
  simpa [firstOps, opCount] using hn

theorem firstOps_block {b : BlockIndex} {blk : Block} (hblk : g.blocks[b]? = some blk) (n : Nat)
    (bound : Option BlockIndex) : (g.firstOps n bound).blocks[b]? = some (blk.upTo n) := by
  rw [firstOps, List.getElem?_toArray, List.getElem?_map, Array.getElem?_toList, hblk,
    Option.map_some]

/-! ## One step

The next operation goes to the block that owns it in the source, which is bound at this point. Its
edges come behind those of all operations before it. -/

private theorem foldlM_addEdge {b : BlockIndex} : ∀ {ts : List BlockIndex} {g : Graph},
    (∀ t ∈ ts, t < g.blockCount) →
    ts.foldlM (addEdge b) g = .ok { g with edges := g.edges ++ (ts.map (Edge.mk b)).toArray }
  | [], g, _ => by simp [pure, Except.pure]
  | t :: ts, g, hts => by
    rw [List.forall_mem_cons] at hts
    obtain ⟨blk, hblk⟩ := exists_block hts.1
    rw [List.foldlM_cons, addEdge, block_eq_ok.mpr hblk, ok_bind]
    change ts.foldlM (addEdge b) { g with edges := g.edges.push ⟨b, t⟩ } = _
    rw [foldlM_addEdge (by simpa [blockCount] using hts.2)]
    simp

/-- An operation whose targets exist can be added wherever there is room for it. -/
theorem addOperation_of_bound {b : BlockIndex} {op : Operation} (hb : g.bound = some b)
    (hroom : g.opCount < noHandle) (hts : ∀ t ∈ op.successors, t < g.blockCount) :
    g.addOperation op = .ok (g.appended b op) := by
  rw [addOperation, hb]
  change (if noHandle ≤ g.opCount then _ else _) = _
  rw [if_neg (Nat.not_le.mpr hroom)]
  cases hend : op.isTerminator with
  | false => simp [appended, hend, Operation.successors_eq_nil hend]
  | true =>
    rw [if_pos rfl, foldlM_addEdge (by simpa [blockCount] using hts)]
    simp [appended, hend]

section Step

variable (hg : g.Sound)

include hg

private theorem upTo_succ {b c : BlockIndex} {blk : Block} {n : OpIndex}
    (hn : n ∈ (g.span b).toList) (hblk : g.blocks[c]? = some blk) :
    blk.upTo (n + 1) = if b = c then (blk.upTo n).extend n else blk.upTo n := by
  cases hs : blk.span? with
  | none =>
    have hne : b ≠ c := by
      rintro rfl
      rw [span_of_block hblk, Block.span, hs] at hn
      simp at hn
    rw [if_neg hne, Block.upTo, Block.upTo, hs]
    rfl
  | some s =>
    have hpos := hg.span_pos hblk hs
    have hspan : g.span c = s := by rw [span_of_block hblk, Block.span, hs, Option.getD_some]
    by_cases hbc : b = c
    · subst hbc
      rw [hspan, Span.mem_toList] at hn
      rw [if_pos rfl, Block.upTo, Block.upTo, Block.extend, hs, Option.bind_some,
        Option.bind_some, if_pos (by lia), Nat.min_eq_right (by lia)]
      by_cases hfirst : s.first < n
      · rw [if_pos hfirst]
        rfl
      · rw [if_neg hfirst]
        have : s.first = n := by lia
        simp [this]
    · -- the operation lies outside the span, so that the span is cut at the same place
      have hout : n < s.first ∨ s.stop ≤ n := by
        by_contra hin
        rw [not_or, Nat.not_lt, Nat.not_le] at hin
        refine hbc (hg.span_disjoint hn ?_)
        rw [hspan]
        exact Span.mem_toList.mpr hin
      rw [if_neg hbc, Block.upTo, Block.upTo, hs, Option.bind_some, Option.bind_some]
      rcases hout with hlt | hle
      · rw [if_neg (by lia), if_neg (by lia)]
      · rw [if_pos (by lia), if_pos (by lia), Nat.min_eq_left (by lia), Nat.min_eq_left hle]

private theorem appended_firstOps {n : OpIndex} {b : BlockIndex} {op : Operation}
    (hop : g.ops[n]? = some op) (hn : n ∈ (g.span b).toList) (bound : Option BlockIndex) :
    (g.firstOps n bound).appended b op
      = g.firstOps (n + 1) (if op.isTerminator then none else some b) := by
  have hown := (hg.mem_span_iff n b).mp hn
  rw [← Array.getElem?_toList] at hown hop
  have hcount : (g.firstOps n bound).opCount = n :=
    firstOps_opCount (Nat.le_of_lt (hg.lt_of_mem_span hn)) bound
  have hblocks : (g.firstOps n bound).blocks.modify b (·.extend n)
      = (g.firstOps (n + 1) (if op.isTerminator then none else some b)).blocks := by
    refine Array.ext_getElem? fun c ↦ ?_
    rw [Array.getElem?_modify]
    cases hblk : g.blocks[c]? with
    | none => simp [firstOps, hblk]
    | some blk =>
      rw [firstOps_block hblk, firstOps_block hblk, upTo_succ hg hn hblk]
      split <;> rfl
  have hzip : (g.ops.toList.zip g.owners.toList)[n]? = some (op, b) :=
    List.getElem?_zip_eq_some.mpr ⟨hop, hown⟩
  rw [appended, hcount, hblocks]
  simp only [firstOps, List.push_toArray, List.append_toArray, List.take_add_one, hop, hown, hzip,
    Option.toList_some, edgesOf, List.flatMap_append, List.flatMap_singleton]

private theorem addOperation_firstOps {n : OpIndex} {b : BlockIndex} {op : Operation}
    (hop : g.ops[n]? = some op) (hn : n ∈ (g.span b).toList) :
    (g.firstOps n (some b)).addOperation op
      = .ok (g.firstOps (n + 1) (if op.isTerminator then none else some b)) := by
  have hlt := hg.lt_of_mem_span hn
  rw [addOperation_of_bound (b := b) rfl, appended_firstOps hg hop hn]
  · rw [firstOps_opCount (Nat.le_of_lt hlt)]
    exact Nat.lt_of_lt_of_le hlt hg.ops_le
  · intro t ht
    rw [firstOps_blockCount]
    have hend := (hg.ends hn hop (Operation.isTerminator_of_mem_successors ht)).1
    rw [← successors_of_terminator hend hop] at ht
    exact hg.target_lt ht

end Step

/-! ## All blocks

Blocks are bound one after the other, each of them receives its own operations, and the last of
these closes it. -/

section Blocks

variable (hg : g.Sound) (hlaid : g.Laid) (hb : g.bound = none)

include hg

theorem bind_firstOps (hlaid : g.Laid) {b : BlockIndex} (hlt : b < g.blockCount) :
    (g.firstOps (g.offset b) none).bind b = .ok (g.firstOps (g.offset b) (some b)) := by
  obtain ⟨blk, hblk⟩ := exists_block hlt
  have hspan : (blk.upTo (g.offset b)).span? = none := by
    rw [Block.upTo, hlaid.span_eq hg hblk, Option.bind_some, if_neg (Nat.lt_irrefl _)]
  have hread := block_eq_ok.mpr (firstOps_block hblk (g.offset b) none)
  change (do
    let blk ← (g.firstOps (g.offset b) none).block b
    if blk.span?.isSome then .error (.alreadyBound b)
    else .ok { g.firstOps (g.offset b) none with bound := some b }) = _
  rw [hread, ok_bind, hspan, if_neg (by simp)]
  rfl

include hb

/-- In a block an operation ends the block exactly if it comes last. -/
theorem isTerminator_iff {b : BlockIndex} {i : OpIndex} {op : Operation}
    (hi : i ∈ (g.span b).toList) (hop : g.ops[i]? = some op) :
    op.isTerminator = true ↔ g.terminator? b = some i :=
  ⟨fun hend ↦ (hg.ends hi hop hend).1, fun hlast ↦ hg.closed hlast (by rw [hb]; nofun) hop⟩

omit hb in
theorem forall₂_opsIn (b : BlockIndex) :
    List.Forall₂ (fun i op ↦ g.ops[i]? = some op) (g.span b).toList (g.opsIn b) := by
  rw [opsIn]
  have hmem : ∀ i ∈ (g.span b).toList, ∃ op, g.ops[i]? = some op := fun i hi ↦
    exists_op (hg.lt_of_mem_span hi)
  generalize (g.span b).toList = l at hmem
  induction l with
  | nil => exact .nil
  | cons i l ih =>
    rw [List.forall_mem_cons] at hmem
    obtain ⟨op, hop⟩ := hmem.1
    rw [List.filterMap_cons_some hop]
    exact .cons hop (ih hmem.2)

omit hb in
theorem length_opsIn (b : BlockIndex) : (g.opsIn b).length = (g.span b).length := by
  rw [← (forall₂_opsIn hg b).length_eq, Span.length_toList]

omit hb in
/-- The operation at a position of a block. -/
theorem getElem?_opsIn {b : BlockIndex} {k : Nat} {op : Operation}
    (hk : (g.opsIn b)[k]? = some op) :
    (g.span b).first + k ∈ (g.span b).toList ∧ g.ops[(g.span b).first + k]? = some op := by
  obtain ⟨hlt, rfl⟩ := List.getElem?_eq_some_iff.mp hk
  have hlt' : k < (g.span b).toList.length := by rwa [(forall₂_opsIn hg b).length_eq]
  have hop := (forall₂_opsIn hg b).get hlt' hlt
  have hget : (g.span b).toList.get ⟨k, hlt'⟩ = (g.span b).first + k := by
    simp [Span.toList]
  rw [hget] at hop
  exact ⟨hget ▸ List.get_mem _ _, hop⟩

/-- The last operation of a block is its only terminator. -/
theorem isTerminator_opsIn {b : BlockIndex} {k : Nat} {op : Operation}
    (hk : (g.opsIn b)[k]? = some op) :
    op.isTerminator = decide (k + 1 = (g.opsIn b).length) := by
  obtain ⟨hmem, hop⟩ := getElem?_opsIn hg hk
  have hin := Span.mem_toList.mp hmem
  rw [Bool.eq_iff_iff, isTerminator_iff hg hb hmem hop, terminator?, Span.last?_eq_some,
    decide_eq_true_eq, length_opsIn hg, Span.length]
  lia

private theorem addOperations_range {b : BlockIndex} : ∀ {k n : Nat},
    (∀ i ∈ List.range' n (k + 1), i ∈ (g.span b).toList) → g.terminator? b = some (n + k) →
    (g.firstOps n (some b)).addOperations ((List.range' n (k + 1)).filterMap (g.ops[·]?))
      = .ok (g.firstOps (n + k + 1) none) := by
  intro k
  induction k with
  | zero =>
    intro n hmem hlast
    have hn := hmem n (by simp)
    obtain ⟨op, hop⟩ := exists_op (hg.lt_of_mem_span hn)
    have hend := (isTerminator_iff hg hb hn hop).mpr hlast
    have hstep := addOperation_firstOps hg hop hn
    rw [hend, if_pos rfl] at hstep
    rw [List.range'_one, List.filterMap_cons_some hop, List.filterMap_nil, addOperations,
      List.foldlM_cons, hstep]
    rfl
  | succ k ih =>
    intro n hmem hlast
    have hn := hmem n (by simp)
    obtain ⟨op, hop⟩ := exists_op (hg.lt_of_mem_span hn)
    have hend : op.isTerminator = false := by
      rw [← Bool.not_eq_true, isTerminator_iff hg hb hn hop, hlast, Option.some.injEq]
      lia
    have hstep := addOperation_firstOps hg hop hn
    rw [hend, if_neg Bool.false_ne_true] at hstep
    rw [List.range'_succ, List.filterMap_cons_some hop, addOperations, List.foldlM_cons, hstep,
      ok_bind]
    have hrest := ih (n := n + 1) (fun i hi ↦ hmem i (by rw [List.range'_succ]; simp [hi]))
      (by rw [hlast, Nat.add_right_comm, Nat.add_assoc])
    rw [← addOperations, hrest]
    congr 2
    lia

include hlaid

/-- Filling one block takes the graph from the end of the block before to its own end. -/
theorem addOperations_firstOps {b : BlockIndex} (hlt : b < g.blockCount) :
    (g.firstOps (g.offset b) (some b)).addOperations (g.opsIn b)
      = .ok (g.firstOps (g.offset (b + 1)) none) := by
  obtain ⟨blk, hblk⟩ := exists_block hlt
  have hs := hlaid.span_eq hg hblk
  have hpos := hg.span_pos hblk hs
  have hspan : g.span b = ⟨g.offset b, g.offset (b + 1)⟩ := by
    rw [span_of_block hblk, Block.span, hs, Option.getD_some]
  obtain ⟨k, hk⟩ : ∃ k, g.offset (b + 1) = g.offset b + k + 1 :=
    ⟨g.offset (b + 1) - g.offset b - 1, by simp only at hpos; lia⟩
  have hlist : (g.span b).toList = List.range' (g.offset b) (k + 1) := by
    rw [hspan, Span.toList, Span.length, hk]
    congr 1
    lia
  have hlast : g.terminator? b = some (g.offset b + k) := by
    rw [terminator?, hspan, Span.last?_eq_some]
    exact ⟨hpos, hk.symm⟩
  rw [opsIn, hlist, hk]
  exact addOperations_range hg hb (fun i hi ↦ by rw [hlist]; exact hi) hlast

omit hlaid in
/-- With all operations in place the graph is there again. -/
theorem firstOps_all : g.firstOps g.opCount none = g.restored := by
  have hops : g.ops.toList.take g.opCount = g.ops.toList := by
    rw [opCount, ← Array.length_toList, List.take_length]
  have howners : g.owners.toList.take g.opCount = g.owners.toList := by
    rw [opCount, ← hg.owners_size, ← Array.length_toList, List.take_length]
  have hzip : (g.ops.toList.zip g.owners.toList).take g.opCount
      = g.ops.toList.zip g.owners.toList := by
    refine List.take_of_length_le ?_
    simp [hg.owners_size, opCount]
  have hblocks : g.blocks.toList.map (·.upTo g.opCount) = g.blocks.toList := by
    refine List.map_congr_left (fun blk hmem ↦ ?_) |>.trans (List.map_id _)
    obtain ⟨b, hlt, rfl⟩ := List.mem_iff_getElem.mp hmem
    have hblk : g.blocks[b]? = some g.blocks.toList[b] := by
      rw [← Array.getElem?_toList, List.getElem?_eq_getElem hlt]
    cases hs : (g.blocks.toList[b]).span? with
    | none => rw [Block.upTo, hs, Option.bind_none, ← hs, id]
    | some s =>
      have hpos := hg.span_pos hblk hs
      have hlast : s.stop - 1 < g.opCount := by
        refine hg.lt_of_mem_span (b := b) ?_
        rw [span_of_block hblk, Block.span, hs, Option.getD_some, Span.mem_toList]
        lia
      rw [Block.upTo, hs, Option.bind_some, if_pos (by lia), Nat.min_eq_left (by lia), ← hs, id]
  rw [firstOps, hops, howners, hzip, hblocks, restored, recordedEdges, hb]

end Blocks

/-- Adding empty blocks. -/
theorem foldlM_addBlock {α : Type} {kind : α → BlockKind} {deferred : α → Bool} :
    ∀ {l : List α} {g : Graph}, g.blockCount + l.length ≤ noHandle →
      l.foldlM (fun g x ↦ Graph.addBlock g (kind x) (deferred x)) g
        = .ok { g with blocks := g.blocks ++ (l.map fun x ↦ ⟨kind x, deferred x, none⟩).toArray }
  | [], g, _ => by simp [pure, Except.pure]
  | x :: l, g, hroom => by
    rw [List.length_cons] at hroom
    have hadd : g.addBlock (kind x) (deferred x)
        = .ok { g with blocks := g.blocks.push ⟨kind x, deferred x, none⟩ } := by
      rw [addBlock, if_neg (by lia)]
    rw [List.foldlM_cons, hadd, ok_bind, foldlM_addBlock]
    · simp
    · rw [blockCount, Array.size_push, ← blockCount]
      lia

private theorem firstOps_zero (g : Graph) :
    g.firstOps 0 none = { Graph.empty g.name with
      blocks := (g.blocks.toList.map fun blk ↦ ⟨blk.kind, blk.deferred, none⟩).toArray } := by
  have hblocks : ∀ blk : Block, blk.upTo 0 = ⟨blk.kind, blk.deferred, none⟩ := by
    intro blk
    rw [Block.upTo]
    cases blk.span? <;> rfl
  simp [firstOps, Graph.empty, edgesOf, hblocks]

theorem foldlM_addBlock_blocks {α : Type} (kind : α → BlockKind) (deferred : α → Bool)
    {l : List α} (hg : g.Sound)
    (hl : (l.map fun x ↦ (⟨kind x, deferred x, none⟩ : Block))
      = g.blocks.toList.map fun blk ↦ ⟨blk.kind, blk.deferred, none⟩) :
    l.foldlM (fun g x ↦ Graph.addBlock g (kind x) (deferred x)) (Graph.empty g.name)
      = .ok (g.firstOps 0 none) := by
  have hlen : l.length = g.blockCount := by
    have := congrArg List.length hl
    simpa [blockCount] using this
  rw [foldlM_addBlock (by rw [hlen]; simpa [Graph.empty, blockCount] using hg.blocks_le),
    firstOps_zero, hl]
  simp [Graph.empty]

/-! ## The restored graph

All operations are in place, and all tables but the edges are those of the source. Where the edges
of the source were in order already, so is everything. -/

section Restored

variable (hg : g.Sound) (hlaid : g.Laid) (hb : g.bound = none)

include hg hlaid hb

private theorem firstOps_sound : ∀ {b : BlockIndex}, b ≤ g.blockCount →
    (g.firstOps (g.offset b) none).Sound := by
  intro b
  induction b with
  | zero =>
    intro _
    exact foldlM_keeps (P := Sound) (fun hs hadd ↦ hs.addBlock hadd) (sound_empty g.name)
      (foldlM_addBlock_blocks Block.kind Block.deferred hg rfl)
  | succ b ih =>
    intro hlt
    have hbound := (ih (Nat.le_of_lt hlt)).bind (bind_firstOps hg hlaid hlt)
    exact foldlM_keeps (P := Sound) (fun hs hadd ↦ hs.addOperation hadd) hbound
      (addOperations_firstOps hg hlaid hb hlt)

private theorem restored_sound : g.restored.Sound := by
  rw [← firstOps_all hg hb, ← hlaid.offset_blockCount]
  exact firstOps_sound hg hlaid hb (Nat.le_refl _)

/-- The predecessors of a restored graph are those of the graph itself, in ascending order. -/
theorem predecessors_restored (b : BlockIndex) :
    g.restored.predecessors b = (g.predecessors b).mergeSort (· ≤ ·) := by
  have hsound := restored_sound hg hlaid hb
  have hperm : (g.restored.predecessors b).Perm ((g.predecessors b).mergeSort (· ≤ ·)) := by
    refine List.Perm.trans ?_ (List.mergeSort_perm _ _).symm
    rw [List.perm_iff_count]
    intro p
    have hsucc : g.restored.successors p = g.successors p := successors_congr rfl rfl
    rw [hsound.count_predecessors_eq, hg.count_predecessors_eq, hsucc]
  have hsorted : (g.restored.predecessors b).Pairwise (· ≤ ·) :=
    Laid.pairwise_predecessors hsound ⟨hlaid.ops_eq, hlaid.isSome_span⟩ rfl b
  have hmerge : ((g.predecessors b).mergeSort (· ≤ ·)).Pairwise (· ≤ ·) :=
    (List.pairwise_mergeSort' (· ≤ ·) _)
  exact hperm.eq_of_pairwise' hsorted hmerge

end Restored

/-- A graph whose edges are in the order of its operations is restored as it was. -/
theorem restored_eq_self (h : g.edges.toList = g.recordedEdges) : g.restored = g := by
  rw [restored, ← h]

end Graph

end Flowgraph
