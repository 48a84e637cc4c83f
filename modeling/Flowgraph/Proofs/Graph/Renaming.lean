import Flowgraph.Proofs.Graph.Sound
import Flowgraph.Sample.Sketch
import Mathlib.Data.List.Nodup
import Mathlib.Data.List.Perm.Subperm

/-!
# Renaming blocks and operations

Renumbering the blocks of a graph gives the same graph under other names. `Renamed g g' β ω` says
that block `b` of `g` is block `β b` of `g'` and operation `i` of `g` is operation `ω i` of `g'`.
Spans, successors, predecessors and soundness all carry over, and they do so in order: the
successors of `β b` are the renamed successors of `b`, the true side before the false one, and the
predecessors keep the order that the inputs of phis depend on.

## Renumbering is renaming

`reorder` computes its two renamings in tables. The table of blocks holds the position of each
block in the permutation, the table of operations the position of each operation in the list of
all operations, taken in the new order of the blocks. Both are read as `List.idxOf`.
-/

namespace Flowgraph

/-! ## Renaming an operation

A renaming of blocks and one of operations act on what an operation refers to and on nothing else.
What kind of operation it is does not change. -/

def Action.renamed (a : Action) (β : BlockIndex → BlockIndex) : Action :=
  match a with
  | .goto t => .goto (β t)
  | .branch t f hint => .branch (β t) (β f) hint
  | a => a

namespace Operation

/-- An operation with its blocks and values renamed. -/
def renamed (op : Operation) (β : BlockIndex → BlockIndex) (ω : OpIndex → OpIndex) : Operation :=
  ⟨op.action.renamed β, op.inputs.map ω⟩

variable {op : Operation} {β : BlockIndex → BlockIndex} {ω : OpIndex → OpIndex}

@[simp] theorem renamed_inputs : (op.renamed β ω).inputs = op.inputs.map ω := rfl

private theorem renamed_id (op : Operation) : op.renamed id id = op := by
  obtain ⟨action, inputs⟩ := op
  rw [renamed, List.map_id]
  cases action <;> rfl

@[simp] theorem renamed_isTerminator : (op.renamed β ω).isTerminator = op.isTerminator := by
  obtain ⟨a, _⟩ := op
  cases a <;> rfl

@[simp] theorem renamed_isJump : (op.renamed β ω).isJump = op.isJump := by
  obtain ⟨a, _⟩ := op
  cases a <;> rfl

@[simp] theorem renamed_isPhi : (op.renamed β ω).isPhi = op.isPhi := by
  obtain ⟨a, _⟩ := op
  cases a <;> rfl

@[simp] theorem renamed_isRequired : (op.renamed β ω).isRequired = op.isRequired := by
  obtain ⟨a, _⟩ := op
  cases a <;> rfl

@[simp] theorem renamed_successors : (op.renamed β ω).successors = op.successors.map β := by
  obtain ⟨a, _⟩ := op
  cases a <;> rfl

private theorem rename_eq_ok {ε : Type} {block : BlockIndex → Except ε BlockIndex}
    {value : OpIndex → Except ε OpIndex} (hβ : ∀ b ∈ op.successors, block b = .ok (β b))
    (hω : ∀ i ∈ op.inputs, value i = .ok (ω i)) :
    op.rename block value = .ok (op.renamed β ω) := by
  have hact : op.action.rename block = .ok (op.action.renamed β) := by
    obtain ⟨a, _⟩ := op
    cases a with
    | goto t =>
      rw [Action.rename, hβ t (by simp [successors])]
      rfl
    | branch t f hint =>
      rw [Action.rename, hβ t (by simp [successors]), hβ f (by simp [successors])]
      rfl
    | _ => rfl
  rw [rename, hact, mapM_eq_ok hω]
  rfl

private theorem forall_of_rename_ok {ε : Type} {block : BlockIndex → Except ε BlockIndex}
    {value : OpIndex → Except ε OpIndex} {op' : Operation} (h : op.rename block value = .ok op') :
    ∀ i ∈ op.inputs, ∃ j, value i = .ok j := by
  rw [rename] at h
  obtain ⟨a, -, h⟩ := exists_of_bind_ok h
  obtain ⟨js, hjs, -⟩ := exists_of_bind_ok h
  intro i hi
  obtain ⟨n, hn, rfl⟩ := List.mem_iff_getElem.mp hi
  have hlen := (forall₂_of_mapM_ok hjs).length_eq
  exact ⟨_, (forall₂_of_mapM_ok hjs).get hn (hlen ▸ hn)⟩

end Operation

namespace Graph

/-! ## Renamed graphs

Every fact about a graph that is stated by blocks and operations has its renamed counterpart. The
counts of edges, the lists of predecessors and the spans are compared as lists, since the inputs of
phis depend on the order. -/

/-- `g'` is `g` with its blocks renamed by `β` and its operations by `ω`. -/
structure Renamed (g g' : Graph) (β : BlockIndex → BlockIndex) (ω : OpIndex → OpIndex) :
    Prop where
  name_eq : g'.name = g.name
  bound_eq : g.bound = none
  bound_eq' : g'.bound = none
  blockCount_eq : g'.blockCount = g.blockCount
  opCount_eq : g'.opCount = g.opCount
  block_lt : ∀ {b}, b < g.blockCount → β b < g.blockCount
  block_inj : ∀ {b c}, b < g.blockCount → c < g.blockCount → β b = β c → b = c
  block_surj : ∀ {c}, c < g.blockCount → ∃ b, b < g.blockCount ∧ β b = c
  op_lt : ∀ {i}, i < g.opCount → ω i < g.opCount
  op_inj : ∀ {i j}, i < g.opCount → j < g.opCount → ω i = ω j → i = j
  op_surj : ∀ {j}, j < g.opCount → ∃ i, i < g.opCount ∧ ω i = j
  block : ∀ {b : BlockIndex} {blk : Block}, g.blocks[b]? = some blk →
    ∃ blk', g'.blocks[β b]? = some blk' ∧ blk'.kind = blk.kind ∧ blk'.deferred = blk.deferred ∧
      blk'.span?.isSome = blk.span?.isSome
  span : ∀ {b}, b < g.blockCount → (g'.span (β b)).toList = (g.span b).toList.map ω
  op : ∀ {i : OpIndex} {op : Operation}, g.ops[i]? = some op →
    g'.ops[ω i]? = some (op.renamed β ω)
  owners_size : g'.owners.size = g'.ops.size
  owner : ∀ {i b}, g.owners[i]? = some b → g'.owners[ω i]? = some (β b)
  edges : g'.edges.toList = g.edges.toList.map fun e ↦ ⟨β e.source, β e.target⟩

/-- A graph under its own names. -/
theorem renamed_self (hg : g.Sound) (hb : g.bound = none) : Renamed g g id id where
  name_eq := rfl
  bound_eq := hb
  bound_eq' := hb
  blockCount_eq := rfl
  opCount_eq := rfl
  block_lt := id
  block_inj _ _ := id
  block_surj hc := ⟨_, hc, rfl⟩
  op_lt := id
  op_inj _ _ := id
  op_surj hj := ⟨_, hj, rfl⟩
  block hblk := ⟨_, hblk, rfl, rfl, rfl⟩
  span _ := (List.map_id _).symm
  op {i op} hop := by rw [id, Operation.renamed_id, hop]
  owners_size := hg.owners_size
  owner := id
  edges := (List.map_id _).symm

namespace Renamed

variable {g g' : Graph} {β : BlockIndex → BlockIndex} {ω : OpIndex → OpIndex}
  (h : Renamed g g' β ω) (hg : g.Sound)

include h

theorem terminator_eq {b : BlockIndex} (hb : b < g.blockCount) :
    g'.terminator? (β b) = (g.terminator? b).map ω := by
  rw [terminator?, terminator?, Span.last?_eq_getLast?, Span.last?_eq_getLast?, h.span hb,
    List.getLast?_map]

theorem op_of_renamed {i : OpIndex} {op' : Operation} (hi : i < g.opCount)
    (hop' : g'.ops[ω i]? = some op') :
    ∃ op, g.ops[i]? = some op ∧ op' = op.renamed β ω := by
  obtain ⟨op, hop⟩ := Graph.exists_op hi
  exact ⟨op, hop, Option.some.inj (hop'.symm.trans (h.op hop))⟩

/-- Within a block the operations keep their order. -/
theorem op_lt_op {b : BlockIndex} {i j : OpIndex} (hi : i ∈ (g.span b).toList)
    (hj : j ∈ (g.span b).toList) (hlt : j < i) : ω j < ω i := by
  have hspan := h.span (lt_blockCount_of_mem_span hi)
  have hsorted : ∀ s : Span, s.toList.Pairwise (· < ·) := fun _ ↦ List.pairwise_lt_range'
  have hmono : ((g.span b).toList.map ω).Pairwise (· < ·) := hspan ▸ hsorted _
  rw [List.pairwise_map] at hmono
  have hup : (g.span b).toList.Pairwise fun k l ↦ k < l → ω k < ω l :=
    hmono.imp (by intro k l hkl _; exact hkl)
  have hdown : (g.span b).toList.Pairwise (flip fun k l ↦ k < l → ω k < ω l) :=
    (hsorted _).imp fun hkl hlk ↦ absurd hlk (Nat.lt_asymm hkl)
  exact hup.forall_of_forall_of_flip (fun k _ hk ↦ absurd hk (Nat.lt_irrefl k)) hdown hj hi hlt

include hg

theorem successors_eq {b : BlockIndex} (hb : b < g.blockCount) :
    g'.successors (β b) = (g.successors b).map β := by
  rw [successors, successors, h.terminator_eq hb]
  cases hi : g.terminator? b with
  | none => rfl
  | some i =>
    obtain ⟨op, hop⟩ := Graph.exists_op (hg.lt_of_mem_span (Span.last?_mem hi))
    simp only [Option.map_some, Option.bind_some, hop, h.op hop, Operation.renamed_successors]

theorem predecessors_eq {b : BlockIndex} (hb : b < g.blockCount) :
    g'.predecessors (β b) = (g.predecessors b).map β := by
  have hfilter : ∀ e ∈ g.edges.toList, ((β e.target == β b) : Bool) = (e.target == b) := by
    intro e he
    rw [Bool.eq_iff_iff, beq_iff_eq, beq_iff_eq]
    exact ⟨h.block_inj (hg.edge_lt he).2 hb, fun heq ↦ by rw [heq]⟩
  rw [predecessors, predecessors, h.edges, List.filter_map, List.map_map, List.map_map]
  congr 1
  exact List.filter_congr hfilter

private theorem edge_count_eq {p b : BlockIndex} (hp : p < g.blockCount) (hb : b < g.blockCount) :
    g'.edges.toList.count ⟨β p, β b⟩ = g.edges.toList.count ⟨p, b⟩ := by
  rw [← count_predecessors, ← count_predecessors, h.predecessors_eq hg hb]
  have hlt : ∀ q ∈ g.predecessors b, q < g.blockCount := fun q hq ↦
    (hg.edge_lt (mem_predecessors.mp hq)).1
  rw [List.count_eq_countP, List.countP_map, List.count_eq_countP]
  refine List.countP_congr fun q hq ↦ ?_
  simp only [Function.comp_apply, beq_iff_eq]
  exact ⟨h.block_inj (hlt q hq) hp, fun heq ↦ by rw [heq]⟩

omit hg in
theorem exists_block_of_lt {b : BlockIndex} (hb : b < g'.blockCount) :
    ∃ c, c < g.blockCount ∧ β c = b :=
  h.block_surj (h.blockCount_eq ▸ hb)

omit hg in
theorem exists_op_of_mem_span {b : BlockIndex} {i : OpIndex} (hb : b < g.blockCount)
    (hi : i ∈ (g'.span (β b)).toList) : ∃ j, j ∈ (g.span b).toList ∧ ω j = i := by
  rw [h.span hb, List.mem_map] at hi
  exact hi

private theorem mem_span_iff {i : OpIndex} {b : BlockIndex} :
    i ∈ (g'.span b).toList ↔ g'.owners[i]? = some b := by
  constructor
  · intro hi
    obtain ⟨c, hc, rfl⟩ := h.exists_block_of_lt (lt_blockCount_of_mem_span hi)
    obtain ⟨j, hj, rfl⟩ := h.exists_op_of_mem_span hc hi
    exact h.owner ((hg.mem_span_iff j c).mp hj)
  · intro hi
    have hlt : i < g.opCount := by
      rw [← h.opCount_eq, opCount, ← h.owners_size]
      exact (Array.getElem?_eq_some_iff.mp hi).1
    obtain ⟨j, hj, rfl⟩ := h.op_surj hlt
    obtain ⟨c, hc⟩ := hg.exists_owner hj
    have hb : b = β c := Option.some.inj (hi.symm.trans (h.owner ((hg.mem_span_iff j c).mp hc)))
    rw [hb, h.span (lt_blockCount_of_mem_span hc)]
    exact List.mem_map_of_mem hc

private theorem span_pos {b : BlockIndex} {blk' : Block} {s : Span}
    (hblk' : g'.blocks[b]? = some blk') (hs : blk'.span? = some s) : s.first < s.stop := by
  obtain ⟨c, hc, rfl⟩ := h.exists_block_of_lt (lt_blockCount hblk')
  obtain ⟨blk, hblk⟩ := Graph.exists_block hc
  obtain ⟨blk'', hblk'', -, -, hsome⟩ := h.block hblk
  cases hblk''.symm.trans hblk'
  rw [hs, Option.isSome_some, eq_comm, Option.isSome_iff_exists] at hsome
  obtain ⟨s', hs'⟩ := hsome
  have hmem : s'.first ∈ (g.span c).toList := by
    rw [span_of_block hblk, Block.span, hs']
    exact Span.mem_toList.mpr ⟨Nat.le_refl _, hg.span_pos hblk hs'⟩
  have hmem' : ω s'.first ∈ (g'.span (β c)).toList := by
    rw [h.span hc]
    exact List.mem_map_of_mem hmem
  rw [span_of_block hblk', Block.span, hs, Option.getD_some, Span.mem_toList] at hmem'
  exact Nat.lt_of_le_of_lt hmem'.1 hmem'.2

private theorem edge_lt {p b : BlockIndex} (hmem : (⟨p, b⟩ : Edge) ∈ g'.edges.toList) :
    p < g'.blockCount ∧ b < g'.blockCount := by
  rw [h.edges, List.mem_map] at hmem
  obtain ⟨e, he, heq⟩ := hmem
  obtain ⟨hs, ht⟩ := Edge.mk.inj heq
  rw [h.blockCount_eq, ← hs, ← ht]
  exact ⟨h.block_lt (hg.edge_lt he).1, h.block_lt (hg.edge_lt he).2⟩

theorem target_lt {b t : BlockIndex} (ht : t ∈ g'.successors b) : t < g'.blockCount := by
  obtain ⟨i, -, hi, -, -⟩ := exists_op_of_mem_successors ht
  obtain ⟨c, hc, rfl⟩ := h.exists_block_of_lt (lt_blockCount_of_mem_span (Span.last?_mem hi))
  rw [h.successors_eq hg hc, List.mem_map] at ht
  obtain ⟨t', ht', rfl⟩ := ht
  rw [h.blockCount_eq]
  exact h.block_lt (hg.target_lt ht')

/-- The edges are those of the terminators: both are renamed alike, and other blocks have none. -/
private theorem count_edge (p b : BlockIndex) :
    g'.edges.toList.count ⟨p, b⟩ = (g'.successors p).count b := by
  by_cases hlt : p < g'.blockCount ∧ b < g'.blockCount
  · obtain ⟨q, hq, rfl⟩ := h.exists_block_of_lt hlt.1
    obtain ⟨c, hc, rfl⟩ := h.exists_block_of_lt hlt.2
    rw [h.successors_eq hg hq, h.edge_count_eq hg hq hc, hg.edge_count, List.count_eq_countP,
      List.count_eq_countP, List.countP_map]
    refine List.countP_congr fun t ht ↦ ?_
    simp only [Function.comp_apply, beq_iff_eq]
    exact ⟨fun heq ↦ by rw [heq], h.block_inj (hg.target_lt ht) hc⟩
  · have hnone : b ∉ g'.successors p := by
      intro hmem
      obtain ⟨i, -, hi, -, -⟩ := exists_op_of_mem_successors hmem
      exact hlt ⟨lt_blockCount_of_mem_span (Span.last?_mem hi), h.target_lt hg hmem⟩
    rw [List.count_eq_zero.mpr hnone, List.count_eq_zero]
    exact fun hmem ↦ hlt (h.edge_lt hg hmem)

/-- A renamed graph is as sound as the graph itself. -/
theorem sound : g'.Sound where
  owners_size := h.owners_size
  mem_span_iff _ _ := h.mem_span_iff hg
  span_pos := h.span_pos hg
  ends {b i op'} hi hop' hend := by
    obtain ⟨c, hc, rfl⟩ := h.exists_block_of_lt (lt_blockCount_of_mem_span hi)
    obtain ⟨j, hj, rfl⟩ := h.exists_op_of_mem_span hc hi
    obtain ⟨op, hop, rfl⟩ := h.op_of_renamed (hg.lt_of_mem_span hj) hop'
    rw [Operation.renamed_isTerminator] at hend
    rw [h.terminator_eq hc, (hg.ends hj hop hend).1, h.bound_eq']
    exact ⟨rfl, by simp⟩
  closed {b i op'} hi _ hop' := by
    obtain ⟨c, hc, rfl⟩ := h.exists_block_of_lt (lt_blockCount_of_mem_span (Span.last?_mem hi))
    rw [h.terminator_eq hc, Option.map_eq_some_iff] at hi
    obtain ⟨j, hj, rfl⟩ := hi
    obtain ⟨op, hop, rfl⟩ := h.op_of_renamed (hg.lt_of_mem_span (Span.last?_mem hj)) hop'
    rw [Operation.renamed_isTerminator]
    exact hg.closed hj (by rw [h.bound_eq]; simp) hop
  edge_count := h.count_edge hg
  target_lt := h.target_lt hg
  bound_lt hb := by rw [h.bound_eq'] at hb; cases hb
  bound_stop hb := by rw [h.bound_eq'] at hb; cases hb
  ops_le := by rw [h.opCount_eq]; exact hg.ops_le
  blocks_le := by rw [h.blockCount_eq]; exact hg.blocks_le

end Renamed

/-! ## The tables of a renumbering

A list is entered into a table element by element, and it is refused if an element is out of range
or comes again. It goes through for permutations, and then the table holds the position of every
element. -/

theorem lookup_eq_ok {α : Type} {table : Array α} {i : Nat} {a : α} :
    lookup table i = .ok a ↔ table[i]? = some a := by
  rw [lookup]
  cases table[i]? <;> simp

/-- Enters the position of one block into the table of positions. -/
def enter (table : Array (Option Nat)) (entry : BlockIndex × Nat) :
    Except Breach (Array (Option Nat)) :=
  match table[entry.1]? with
  | some none => .ok (table.setIfInBounds entry.1 (some entry.2))
  | _ => .error (.notBijective entry.2 entry.1)

theorem positions_eq_foldlM (n : Nat) (perm : List BlockIndex) :
    positions n perm = perm.zipIdx.foldlM enter (Array.replicate n none) := rfl

theorem enter_eq_ok {t t' : Array (Option Nat)} {b : BlockIndex} {pos : Nat} :
    enter t (b, pos) = .ok t' ↔ t[b]? = some none ∧ t.setIfInBounds b (some pos) = t' := by
  rw [enter]
  split
  · rename_i h
    simp [h]
  · rename_i h
    simp only [reduceCtorEq, false_iff, not_and]
    exact fun hb ↦ absurd hb h

private theorem foldlM_enter : ∀ {l : List BlockIndex} {k : Nat} {t t' : Array (Option Nat)},
    (l.zipIdx k).foldlM enter t = .ok t' →
      l.Nodup ∧ (∀ b ∈ l, t[b]? = some none) ∧
        ∀ b : Nat, t'[b]? = if b ∈ l then some (some (k + l.idxOf b)) else t[b]?
  | [], k, t, t', h => by
    cases h
    simp
  | c :: l, k, t, t', h => by
    rw [List.zipIdx_cons, List.foldlM_cons] at h
    obtain ⟨t₁, h₁, h⟩ := exists_of_bind_ok h
    obtain ⟨hc, rfl⟩ := enter_eq_ok.mp h₁
    obtain ⟨hnd, hfree, hget⟩ := foldlM_enter h
    have hlt : c < t.size := (Array.getElem?_eq_some_iff.mp hc).1
    have hself : (t.setIfInBounds c (some k))[c]? = some (some k) := by
      rw [Array.getElem?_setIfInBounds_self_of_lt hlt]
    have hother : ∀ b : Nat, b ≠ c → (t.setIfInBounds c (some k))[b]? = t[b]? := fun b hb ↦
      Array.getElem?_setIfInBounds_ne (Ne.symm hb)
    -- the place of `c` is taken, so that the rest of the list cannot be entered with `c` in it
    have hcl : c ∉ l := fun hmem ↦ by
      have := hfree c hmem
      rw [hself] at this
      cases this
    refine ⟨List.nodup_cons.mpr ⟨hcl, hnd⟩, List.forall_mem_cons.mpr ⟨hc, fun b hb ↦ ?_⟩,
      fun b ↦ ?_⟩
    · rw [← hother b (fun heq ↦ hcl (heq ▸ hb))]
      exact hfree b hb
    · rw [hget b]
      by_cases hbc : b = c
      · subst hbc
        simp [hcl, hself]
      · rw [hother b hbc, List.idxOf_cons_ne _ (Ne.symm hbc), Nat.add_right_comm k 1]
        simp [hbc, Nat.add_assoc]

private theorem exists_foldlM_enter : ∀ {l : List BlockIndex} {k : Nat} {t : Array (Option Nat)},
    l.Nodup → (∀ b ∈ l, t[b]? = some none) → ∃ t', (l.zipIdx k).foldlM enter t = .ok t'
  | [], k, t, _, _ => ⟨t, rfl⟩
  | c :: l, k, t, hnd, hfree => by
    rw [List.nodup_cons] at hnd
    have hc : enter t (c, k) = .ok (t.setIfInBounds c (some k)) :=
      enter_eq_ok.mpr ⟨hfree c List.mem_cons_self, rfl⟩
    rw [List.zipIdx_cons, List.foldlM_cons, hc]
    refine exists_foldlM_enter hnd.2 fun b hb ↦ ?_
    have hne : c ≠ b := fun heq ↦ hnd.1 (heq ▸ hb)
    rw [Array.getElem?_setIfInBounds_ne hne]
    exact hfree b (List.mem_cons_of_mem _ hb)

/-- The table of positions of a list that holds every block once. -/
theorem positions_spec {n : Nat} {perm : List BlockIndex} {t : Array (Option Nat)}
    (hlen : perm.length = n) (h : positions n perm = .ok t) :
    perm.Perm (List.range n) ∧ ∀ b < n, t[b]? = some (some (perm.idxOf b)) := by
  rw [positions_eq_foldlM] at h
  obtain ⟨hnd, hfree, hget⟩ := foldlM_enter h
  have hlt : ∀ b ∈ perm, b < n := fun b hb ↦ by
    have := (Array.getElem?_eq_some_iff.mp (hfree b hb)).1
    rwa [Array.size_replicate] at this
  have hsub : perm.Subperm (List.range n) :=
    hnd.subperm fun b hb ↦ List.mem_range.mpr (hlt b hb)
  have hperm : perm.Perm (List.range n) :=
    hsub.perm_of_length_le (by simp [hlen])
  refine ⟨hperm, fun b hb ↦ ?_⟩
  rw [hget b, if_pos (hperm.mem_iff.mpr (List.mem_range.mpr hb)), Nat.zero_add]

theorem exists_positions {n : Nat} {perm : List BlockIndex} (h : perm.Perm (List.range n)) :
    ∃ t, positions n perm = .ok t := by
  rw [positions_eq_foldlM]
  refine exists_foldlM_enter (h.nodup_iff.mpr List.nodup_range) fun b hb ↦ ?_
  rw [Array.getElem?_replicate, if_pos (List.mem_range.mp (h.mem_iff.mp hb))]

private theorem foldl_renumber : ∀ {l : List OpIndex} {k : Nat} {t : Array OpIndex}, l.Nodup →
    ∀ i : Nat, i < t.size →
      ((l.zipIdx k).foldl (fun table (old, new) ↦ table.setIfInBounds old new) t)[i]?
        = if i ∈ l then some (k + l.idxOf i) else t[i]?
  | [], k, t, _, i, _ => by simp
  | c :: l, k, t, hnd, i, hi => by
    rw [List.nodup_cons] at hnd
    rw [List.zipIdx_cons, List.foldl_cons, foldl_renumber hnd.2 i (by simpa using hi)]
    by_cases hic : i = c
    · subst hic
      simp [hnd.1, Array.getElem?_setIfInBounds_self_of_lt hi]
    · rw [Array.getElem?_setIfInBounds_ne (Ne.symm hic), List.idxOf_cons_ne _ (Ne.symm hic),
        Nat.add_right_comm k 1]
      simp [hic, Nat.add_assoc]

private theorem renumbering_get {n : Nat} {order : List OpIndex} (hnd : order.Nodup) {i : OpIndex}
    (hi : i ∈ order) (hlt : i < n) : (renumbering n order)[i]? = some (order.idxOf i) := by
  rw [renumbering, foldl_renumber hnd i (by rwa [Array.size_replicate]), if_pos hi, Nat.zero_add]

/-! ## The operations in their new order

The operations of the blocks, block after block in the new order, are all operations, each once. The
place of an operation in this list is its new number. -/

section Order

variable {g : Graph} {perm : List BlockIndex} (hg : g.Sound)

include hg

theorem nodup_opsOf (hnd : perm.Nodup) : (g.opsOf perm).Nodup := by
  rw [opsOf, List.nodup_flatMap]
  refine ⟨fun b _ ↦ Span.nodup_toList _, hnd.imp fun {b c} hbc i hb hc ↦ ?_⟩
  exact hbc (hg.span_disjoint hb hc)

theorem mem_opsOf (hperm : perm.Perm (List.range g.blockCount)) {i : OpIndex} :
    i ∈ g.opsOf perm ↔ i < g.opCount := by
  rw [opsOf, List.mem_flatMap]
  constructor
  · rintro ⟨b, -, hi⟩
    exact hg.lt_of_mem_span hi
  · intro hi
    obtain ⟨b, hb⟩ := hg.exists_owner hi
    exact ⟨b, hperm.mem_iff.mpr (List.mem_range.mpr (lt_blockCount_of_mem_span hb)), hb⟩

theorem opsOf_perm (hperm : perm.Perm (List.range g.blockCount)) :
    (g.opsOf perm).Perm (List.range g.opCount) := by
  rw [List.perm_ext_iff_of_nodup (nodup_opsOf hg (hperm.nodup_iff.mpr List.nodup_range))
    List.nodup_range]
  exact fun i ↦ (mem_opsOf hg hperm).trans List.mem_range.symm

/-- The operations of a block follow those of the blocks before it. -/
theorem idxOf_opsOf {pre suf : List BlockIndex} {b : BlockIndex} {i : OpIndex}
    (hnd : (pre ++ b :: suf).Nodup) (hi : i ∈ (g.span b).toList) :
    (g.opsOf (pre ++ b :: suf)).idxOf i = (g.opsOf pre).length + (g.span b).toList.idxOf i := by
  have hpre : i ∉ g.opsOf pre := by
    intro h
    obtain ⟨c, hc, hic⟩ := List.mem_flatMap.mp h
    exact List.disjoint_of_nodup_append hnd hc (hg.span_disjoint hic hi ▸ List.mem_cons_self)
  have hops : g.opsOf (pre ++ b :: suf) = g.opsOf pre ++ ((g.span b).toList ++ g.opsOf suf) := by
    simp [opsOf]
  rw [hops, List.idxOf_append_of_notMem hpre, List.idxOf_append_of_mem hi, Nat.add_comm]

private theorem map_idxOf_span {pre suf : List BlockIndex} {b : BlockIndex}
    (hnd : (pre ++ b :: suf).Nodup) :
    (g.span b).toList.map (g.opsOf (pre ++ b :: suf)).idxOf
      = List.range' (g.opsOf pre).length (g.span b).length := by
  refine List.ext_getElem (by simp) fun n hn _ ↦ ?_
  have hn' : n < (g.span b).toList.length := by simpa using hn
  rw [List.getElem_map, idxOf_opsOf hg hnd (List.getElem_mem hn'),
    (Span.nodup_toList _).idxOf_getElem n hn', List.getElem_range', Nat.one_mul]

end Order

/-- The blocks with their new ranges: each range starts where the one before it ends. -/
theorem place_append (g : Graph) (suf : List BlockIndex) : ∀ (pre : List BlockIndex) (start : Nat),
    (∀ b ∈ pre, b < g.blockCount) →
    g.place start (pre ++ suf) = g.place start pre ++ g.place (start + (g.opsOf pre).length) suf ∧
      (g.place start pre).length = pre.length
  | [], start, _ => by simp [place, opsOf]
  | b :: pre, start, hlt => by
    rw [List.forall_mem_cons] at hlt
    obtain ⟨blk, hblk⟩ := exists_block hlt.1
    obtain ⟨happ, hlen⟩ := place_append g suf pre (start + blk.span.length) hlt.2
    have hops : (g.opsOf (b :: pre)).length = blk.span.length + (g.opsOf pre).length := by
      simp [opsOf, span_of_block hblk]
    simp only [List.cons_append, place, hblk, happ, hlen, hops, Nat.add_assoc, List.length_cons,
      and_self]

/-- The block with the range that renumbering gives it if its operations start at `start`. -/
def moved (blk : Block) (start : Nat) : Block :=
  if blk.span.length = 0 then blk else { blk with span? := some ⟨start, start + blk.span.length⟩ }

private theorem place_get {g : Graph} {pre suf : List BlockIndex} {b : BlockIndex} {blk : Block}
    (hlt : ∀ c ∈ pre, c < g.blockCount) (hblk : g.blocks[b]? = some blk) :
    (g.place 0 (pre ++ b :: suf))[pre.length]? = some (moved blk (g.opsOf pre).length) := by
  obtain ⟨happ, hlen⟩ := place_append g (b :: suf) pre 0 hlt
  rw [happ, List.getElem?_append_right (Nat.le_of_eq hlen), hlen, Nat.sub_self, Nat.zero_add]
  simp only [place, hblk, List.getElem?_cons_zero, moved]

theorem moved_span (blk : Block) (start : Nat) :
    (moved blk start).span.toList = List.range' start blk.span.length := by
  rw [moved]
  split
  · rename_i h
    rw [Span.toList, h, List.range'_zero, List.range'_zero]
  · simp [Block.span, Span.toList, Span.length]

/-- The owners of the operations, in the new order of their blocks. -/
def ownersOf (g : Graph) (k : Nat) (blocks : List BlockIndex) : List BlockIndex :=
  (blocks.zipIdx k).flatMap fun (b, pos) ↦ List.replicate (g.span b).length pos

theorem length_ownersOf (g : Graph) : ∀ (k : Nat) (l : List BlockIndex),
    (g.ownersOf k l).length = (g.opsOf l).length
  | _, [] => rfl
  | k, b :: l => by
    have ih := length_ownersOf g (k + 1) l
    rw [ownersOf] at ih
    rw [ownersOf, List.zipIdx_cons, List.flatMap_cons, List.length_append, List.length_replicate,
      ih, opsOf, opsOf, List.flatMap_cons, List.length_append, Span.length_toList]

private theorem ownersOf_get {g : Graph} {pre suf : List BlockIndex} {b : BlockIndex} {n : Nat}
    (hn : n < (g.span b).length) :
    (g.ownersOf 0 (pre ++ b :: suf))[(g.opsOf pre).length + n]? = some pre.length := by
  rw [ownersOf, List.zipIdx_append, List.flatMap_append, ← length_ownersOf g 0 pre, ownersOf,
    List.getElem?_append_right (Nat.le_add_right _ _), Nat.add_sub_cancel_left, List.zipIdx_cons,
    List.flatMap_cons, List.getElem?_append_left (by simpa using hn), List.getElem?_replicate,
    if_pos hn, Nat.zero_add]

/-! ## Renumbering

With the tables at hand, renumbering is written as one expression, and everything in it can be
looked up: that the list is a permutation and that values exist are the only conditions. -/

/-- Every operation takes values of the graph only. -/
def ValuesExist (g : Graph) : Prop :=
  ∀ {i : OpIndex} {op : Operation}, g.ops[i]? = some op → ∀ j ∈ op.inputs, j < g.opCount

/-- The graph with block `perm[i]` as block `i`. -/
def renumbered (g : Graph) (perm : List BlockIndex) : Graph :=
  { g with
    ops := ((g.opsOf perm).map fun i ↦
      (g.ops[i]?.getD .dead).renamed perm.idxOf (g.opsOf perm).idxOf).toArray
    owners := (g.ownersOf 0 perm).toArray
    blocks := (g.place 0 perm).toArray
    edges := g.edges.map fun e ↦ ⟨perm.idxOf e.source, perm.idxOf e.target⟩ }

/-- The new number of a block, read from the table of positions. -/
def newBlock (t : Array (Option Nat)) (b : BlockIndex) : Except Breach BlockIndex := do
  match ← lookup t b with
  | some b' => return b'
  | none => throw .fault

private theorem newBlock_eq_ok {t : Array (Option Nat)} {b c : BlockIndex}
    (h : t[b]? = some (some c)) : newBlock t b = .ok c := by
  rw [newBlock, lookup_eq_ok.mpr h]
  rfl

/-- A renumbering step by step, after its checks. -/
theorem reorder_eq {g : Graph} {perm : List BlockIndex} (hb : g.bound = none)
    (hlen : perm.length = g.blockCount) :
    g.reorder perm = do
      let t ← positions g.blockCount perm
      let ops ← (g.opsOf perm).mapM fun i ↦ lookup g.ops i >>=
        (·.rename (newBlock t) (lookup (renumbering g.opCount (g.opsOf perm))))
      let edges ← g.edges.mapM fun e ↦ do
        return (⟨← newBlock t e.source, ← newBlock t e.target⟩ : Edge)
      return { g with
        ops := ops.toArray
        owners := (g.ownersOf 0 perm).toArray
        blocks := (g.place 0 perm).toArray
        edges } := by
  rw [reorder, if_neg (by simp [hb]), if_neg (by simp [hlen])]
  rfl

/-- Operations refer to blocks of the graph only. -/
theorem Sound.successor_lt {g : Graph} (hg : g.Sound) {i : OpIndex} {op : Operation}
    (hop : g.ops[i]? = some op) {t : BlockIndex} (ht : t ∈ op.successors) : t < g.blockCount := by
  obtain ⟨b, hb⟩ := hg.exists_owner (lt_opCount hop)
  have hend := Operation.isTerminator_of_mem_successors ht
  rw [← successors_of_terminator (hg.ends hb hop hend).1 hop] at ht
  exact hg.target_lt ht

section Tables

variable {g : Graph} {perm : List BlockIndex} {t : Array (Option Nat)} (hg : g.Sound)
  (hlen : perm.length = g.blockCount) (ht : positions g.blockCount perm = .ok t)

include hlen ht

theorem newBlock_of_positions {b : BlockIndex} (hb : b < g.blockCount) :
    newBlock t b = .ok (perm.idxOf b) :=
  newBlock_eq_ok ((positions_spec hlen ht).2 b hb)

include hg

private theorem mapM_rename_ops (hval : g.ValuesExist) :
    (g.opsOf perm).mapM (fun i ↦ lookup g.ops i >>=
      (·.rename (newBlock t) (lookup (renumbering g.opCount (g.opsOf perm)))))
      = .ok ((g.opsOf perm).map fun i ↦
          (g.ops[i]?.getD .dead).renamed perm.idxOf (g.opsOf perm).idxOf) := by
  have hperm := (positions_spec hlen ht).1
  have hnd := nodup_opsOf hg (hperm.nodup_iff.mpr List.nodup_range)
  have hvalue : ∀ i < g.opCount, lookup (renumbering g.opCount (g.opsOf perm)) i
      = .ok ((g.opsOf perm).idxOf i) := fun i hi ↦
    lookup_eq_ok.mpr (renumbering_get hnd ((mem_opsOf hg hperm).mpr hi) hi)
  refine mapM_eq_ok fun i hi ↦ ?_
  obtain ⟨op, hop⟩ := exists_op ((mem_opsOf hg hperm).mp hi)
  rw [lookup_eq_ok.mpr hop, hop]
  exact Operation.rename_eq_ok
    (fun c hc ↦ newBlock_of_positions hlen ht (hg.successor_lt hop hc))
    fun j hj ↦ hvalue j (hval hop j hj)

theorem mapM_rename_edges :
    g.edges.mapM (fun e ↦ do
        return (⟨← newBlock t e.source, ← newBlock t e.target⟩ : Edge))
      = (.ok (g.edges.map fun e ↦ ⟨perm.idxOf e.source, perm.idxOf e.target⟩) :
        Except Breach _) := by
  have hlist := mapM_eq_ok (l := g.edges.toList) fun e he ↦
    show (do return (⟨← newBlock t e.source, ← newBlock t e.target⟩ : Edge))
      = .ok ⟨perm.idxOf e.source, perm.idxOf e.target⟩ by
    rw [newBlock_of_positions hlen ht (hg.edge_lt he).1,
      newBlock_of_positions hlen ht (hg.edge_lt he).2]
    rfl
  rw [Array.mapM_eq_mapM_toList, hlist]
  exact congrArg Except.ok (Array.toList_inj.mp (by simp))

end Tables

/-- Renumbering by a permutation goes through if no operation takes a value that does not exist. -/
theorem reorder_of_perm {g : Graph} {perm : List BlockIndex} (hg : g.Sound)
    (hb : g.bound = none) (hperm : perm.Perm (List.range g.blockCount)) (hval : g.ValuesExist) :
    g.reorder perm = .ok (g.renumbered perm) := by
  obtain ⟨t, ht⟩ := exists_positions hperm
  have hlen : perm.length = g.blockCount := by rw [hperm.length_eq, List.length_range]
  rw [reorder_eq hb hlen, ht, ok_bind, mapM_rename_ops hg hlen ht hval, ok_bind,
    mapM_rename_edges hg hlen ht]
  rfl

/-- A renumbering that goes through had a permutation and only values that exist. -/
theorem of_reorder_ok {g g' : Graph} {perm : List BlockIndex} (hg : g.Sound)
    (h : g.reorder perm = .ok g') :
    g.bound = none ∧ perm.Perm (List.range g.blockCount) ∧ g.ValuesExist := by
  have hb : g.bound = none := by
    by_contra hb
    rw [reorder, if_pos (by simpa [Option.isSome_iff_ne_none] using hb)] at h
    cases h
  have hlen : perm.length = g.blockCount := by
    by_contra hlen
    rw [reorder, if_neg (by simp [hb]), if_pos hlen] at h
    cases h
  rw [reorder_eq hb hlen] at h
  obtain ⟨t, ht, h⟩ := exists_of_bind_ok h
  obtain ⟨ops, hops, -⟩ := exists_of_bind_ok h
  have hperm := (positions_spec hlen ht).1
  refine ⟨hb, hperm, fun {i op} hop j hj ↦ ?_⟩
  obtain ⟨n, hn, rfl⟩ := List.mem_iff_getElem.mp ((mem_opsOf hg hperm).mpr (lt_opCount hop))
  have hall := forall₂_of_mapM_ok hops
  have hren := hall.get hn (hall.length_eq ▸ hn)
  obtain ⟨op', hop', hren⟩ := exists_of_bind_ok hren
  have : op' = op := Option.some.inj ((lookup_eq_ok.mp hop').symm.trans hop)
  subst this
  obtain ⟨k, hk⟩ := Operation.forall_of_rename_ok hren j hj
  have hsize : ∀ (l : List (OpIndex × Nat)) (t : Array OpIndex),
      (l.foldl (fun table (old, new) ↦ table.setIfInBounds old new) t).size = t.size := by
    intro l
    induction l with
    | nil => exact fun _ ↦ rfl
    | cons e l ih =>
      intro t
      rw [List.foldl_cons, ih, Array.size_setIfInBounds]
  have hlt := (Array.getElem?_eq_some_iff.mp (lookup_eq_ok.mp hk)).1
  rwa [renumbering, hsize, Array.size_replicate] at hlt

section Renumbered

variable {g : Graph} {perm : List BlockIndex} (hg : g.Sound)
  (hperm : perm.Perm (List.range g.blockCount))

include hg hperm

omit hg in
/-- The new range of a block, and the split of the permutation that it comes from. -/
theorem renumbered_block {b : BlockIndex} {blk : Block} (hblk : g.blocks[b]? = some blk) :
    ∃ pre suf, perm = pre ++ b :: suf ∧ perm.idxOf b = pre.length ∧
      (g.renumbered perm).blocks[perm.idxOf b]? = some (moved blk (g.opsOf pre).length) := by
  have hmem : b ∈ perm := hperm.mem_iff.mpr (List.mem_range.mpr (lt_blockCount hblk))
  have hnd : perm.Nodup := hperm.nodup_iff.mpr List.nodup_range
  obtain ⟨pre, suf, rfl⟩ := List.append_of_mem hmem
  have hpre : b ∉ pre := fun h ↦
    List.disjoint_of_nodup_append hnd h List.mem_cons_self
  have hidx : (pre ++ b :: suf).idxOf b = pre.length := by
    rw [List.idxOf_append_of_notMem hpre, List.idxOf_cons_self, Nat.add_zero]
  refine ⟨pre, suf, rfl, hidx, ?_⟩
  rw [hidx, renumbered, List.getElem?_toArray]
  refine place_get (fun c hc ↦ ?_) hblk
  exact List.mem_range.mp (hperm.mem_iff.mp (List.mem_append_left _ hc))

private theorem renumbered_owner {i : OpIndex} {b : BlockIndex} (hi : g.owners[i]? = some b) :
    (g.renumbered perm).owners[(g.opsOf perm).idxOf i]? = some (perm.idxOf b) := by
  have hmem := (hg.mem_span_iff i b).mpr hi
  obtain ⟨blk, hblk⟩ := exists_block (lt_blockCount_of_mem_span hmem)
  obtain ⟨pre, suf, rfl, hidx, -⟩ := renumbered_block hperm hblk
  rw [hidx, renumbered, List.getElem?_toArray,
    idxOf_opsOf hg (hperm.nodup_iff.mpr List.nodup_range) hmem]
  refine ownersOf_get ?_
  rw [← Span.length_toList]
  exact List.idxOf_lt_length_of_mem hmem

/-- Renumbering renames each block to its position and each operation to its place in the new
order. -/
theorem renumbered_renamed (hb : g.bound = none) :
    Renamed g (g.renumbered perm) perm.idxOf (g.opsOf perm).idxOf := by
  have hnd : perm.Nodup := hperm.nodup_iff.mpr List.nodup_range
  have hlen : perm.length = g.blockCount := by rw [hperm.length_eq, List.length_range]
  have hops := opsOf_perm hg hperm
  have hopslen : (g.opsOf perm).length = g.opCount := by rw [hops.length_eq, List.length_range]
  have hmem : ∀ {b}, b < g.blockCount ↔ b ∈ perm := fun {b} ↦
    (hperm.mem_iff.trans List.mem_range).symm
  have hmem' : ∀ {i}, i < g.opCount ↔ i ∈ g.opsOf perm := fun {i} ↦ (mem_opsOf hg hperm).symm
  -- the places of blocks and operations in the new order are what `idxOf` finds
  have hplace := (place_append g [] perm 0 fun b hb ↦ hmem.mpr hb).2
  refine {
    name_eq := rfl
    bound_eq := hb
    bound_eq' := hb
    blockCount_eq := by rw [blockCount, renumbered, List.size_toArray, hplace, hlen]
    opCount_eq := by rw [opCount, renumbered, List.size_toArray, List.length_map, hopslen]
    block_lt := fun hb ↦ hlen ▸ List.idxOf_lt_length_of_mem (hmem.mp hb)
    block_inj := fun hb _ heq ↦ (List.idxOf_inj (hmem.mp hb)).mp heq
    block_surj := fun {c} hc ↦ ?_
    op_lt := fun hi ↦ hopslen ▸ List.idxOf_lt_length_of_mem (hmem'.mp hi)
    op_inj := fun hi _ heq ↦ (List.idxOf_inj (hmem'.mp hi)).mp heq
    op_surj := fun {j} hj ↦ ?_
    block := fun {b blk} hblk ↦ ?_
    span := fun {b} hb ↦ ?_
    op := fun {i op} hop ↦ ?_
    owners_size := by
      rw [renumbered, List.size_toArray, List.size_toArray, length_ownersOf, List.length_map]
    owner := renumbered_owner hg hperm
    edges := by rw [renumbered, Array.toList_map] }
  · rw [← hlen] at hc
    exact ⟨perm[c], hmem.mpr (List.getElem_mem hc), hnd.idxOf_getElem c hc⟩
  · rw [← hopslen] at hj
    exact ⟨(g.opsOf perm)[j], hmem'.mpr (List.getElem_mem hj),
      (nodup_opsOf hg hnd).idxOf_getElem j hj⟩
  · obtain ⟨pre, suf, -, -, hblk'⟩ := renumbered_block hperm hblk
    refine ⟨_, hblk', ?_⟩
    rw [moved]
    split
    · exact ⟨rfl, rfl, rfl⟩
    · rename_i hlen
      refine ⟨rfl, rfl, ?_⟩
      cases hs : blk.span? with
      | none => simp [Block.span, hs, Span.empty, Span.length] at hlen
      | some s => rfl
  · obtain ⟨blk, hblk⟩ := exists_block hb
    obtain ⟨pre, suf, hsplit, -, hblk'⟩ := renumbered_block hperm hblk
    rw [span_of_block hblk', moved_span, hsplit, map_idxOf_span hg (hsplit ▸ hnd),
      span_of_block hblk]
  · have hi := hmem'.mp (lt_opCount hop)
    rw [renumbered, List.getElem?_toArray, List.getElem?_map,
      List.getElem?_idxOf hi, Option.map_some, hop, Option.getD_some]

end Renumbered

/-- Renumbering a sound graph renames it. -/
theorem reorder_renamed {g g' : Graph} {perm : List BlockIndex} (hg : g.Sound)
    (h : g.reorder perm = .ok g') : Renamed g g' perm.idxOf (g.opsOf perm).idxOf := by
  obtain ⟨hb, hperm, hval⟩ := of_reorder_ok hg h
  rw [reorder_of_perm hg hb hperm hval] at h
  cases h
  exact renumbered_renamed hg hperm hb

/-! ## Built graphs

The graphs that can be made from nothing by adding to them, adjusting and renumbering them. All of
them are sound, and so is the graph of a sketch. -/

/-- The graphs that come into being by building, adjusting and renumbering. -/
inductive Built : Graph → Prop where
  | empty (name : ByteArray) : Built (.empty name)
  | rename {g : Graph} (name : ByteArray) : Built g → Built { g with name }
  | addBlock {g g' : Graph} {kind : BlockKind} {deferred : Bool} :
    Built g → g.addBlock kind deferred = .ok g' → Built g'
  | bind {g g' : Graph} {b : BlockIndex} : Built g → g.bind b = .ok g' → Built g'
  | addOperation {g g' : Graph} {op : Operation} :
    Built g → g.addOperation op = .ok g' → Built g'
  | setDeferred {g g' : Graph} {b : BlockIndex} {deferred : Bool} :
    Built g → g.setDeferred b deferred = .ok g' → Built g'
  | setKind {g g' : Graph} {b : BlockIndex} {kind : BlockKind} :
    Built g → g.setKind b kind = .ok g' → Built g'
  | setInputs {g g' : Graph} {i : OpIndex} {inputs : List OpIndex} :
    Built g → g.setInputs i inputs = .ok g' → Built g'
  | reorder {g g' : Graph} {perm : List BlockIndex} :
    Built g → g.reorder perm = .ok g' → Built g'

/-- The tables of every graph that can be built agree with each other. -/
theorem Built.sound {g : Graph} (h : g.Built) : g.Sound := by
  induction h with
  | empty name => exact sound_empty name
  | @rename g name _ ih =>
    have halike : Alike g { g with name } := ⟨fun _ ↦ rfl, rfl, fun _ ↦ rfl, rfl, rfl⟩
    exact halike.sound ih
  | addBlock _ h ih => exact ih.addBlock h
  | bind _ h ih => exact ih.bind h
  | addOperation _ h ih => exact ih.addOperation h
  | setDeferred _ h ih => exact (setDeferred_alike h).sound ih
  | setKind _ h ih => exact (setKind_alike h).sound ih
  | setInputs _ h ih => exact (setInputs_alike h).sound ih
  | reorder _ h ih => exact (reorder_renamed ih h).sound ih

theorem Built.addOperations {g g' : Graph} {ops : List Operation} (hg : g.Built)
    (h : g.addOperations ops = .ok g') : g'.Built :=
  foldlM_keeps (fun hg h ↦ hg.addOperation h) hg h

end Graph

/-- The graph of a sketch is built. -/
theorem Sketch.graph_built (s : Sketch) (name : ByteArray) {g : Graph}
    (h : s.graph name = .ok g) : g.Built := by
  rw [graph] at h
  split at h
  · cases h
  · obtain ⟨g₀, h₀, h⟩ := exists_of_bind_ok h
    have hblocks : g₀.Built := foldlM_keeps (fun hg h ↦ hg.addBlock h) (.empty name) h₀
    refine foldlM_keeps (fun {g e g'} hg hfill ↦ ?_) hblocks h
    change fill g e.2 e.1 = .ok g' at hfill
    rw [fill] at hfill
    obtain ⟨g₁, hbind, hfill⟩ := exists_of_bind_ok hfill
    have hg₁ := hg.bind hbind
    split at hfill
    · exact hg₁.addOperation hfill
    · exact hg₁.addOperation hfill
    · exact hg₁.addOperations hfill
    · cases hfill

end Flowgraph
