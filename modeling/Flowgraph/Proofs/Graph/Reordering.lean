import Flowgraph.Proofs.Graph.Filling
import Flowgraph.Proofs.Graph.Violations

/-!
# What renumbering does

`ReorderedBy g g' perm` says in one place what block `i` of a renumbered graph has of block
`perm[i]` of the graph it came from. This module proves it of every renumbering that goes through,
tells when a renumbering is refused and with which breach, and shows that two renumberings in a row
are one.

## Two renumberings in a row

If `p` puts block `p[i]` first, `q` then picks its blocks by their new numbers: block `q[i]` of the
renumbered graph is block `p[q[i]]` of the original. Read the other way round, `q` is the list of
these blocks under their new names, and so is the list of all operations in their second order.
Positions in a list do not change when its entries are renamed, which is all that the equality of
the two results takes.
-/

namespace Flowgraph

private theorem idxOf_map {l : List Nat} {f : Nat → Nat} {a : Nat}
    (hf : ∀ b ∈ l, f b = f a → b = a) : (l.map f).idxOf (f a) = l.idxOf a := by
  induction l with
  | nil => rfl
  | cons b l ih =>
    rw [List.forall_mem_cons] at hf
    by_cases hb : b = a
    · subst hb
      rw [List.map_cons, List.idxOf_cons_self, List.idxOf_cons_self]
    · rw [List.map_cons, List.idxOf_cons_ne _ hb, List.idxOf_cons_ne _ fun heq ↦ hb (hf.1 heq),
        ih hf.2]

/-! ## Renaming twice

Renaming by one pair of maps and then by another is renaming by the composed pair, and a renaming
only matters on what an operation refers to. -/

namespace Operation

private theorem renamed_renamed (op : Operation) (β β' : BlockIndex → BlockIndex)
    (ω ω' : OpIndex → OpIndex) :
    (op.renamed β ω).renamed β' ω' = op.renamed (β' ∘ β) (ω' ∘ ω) := by
  obtain ⟨action, inputs⟩ := op
  cases action <;> simp [renamed, Action.renamed]

private theorem renamed_congr {op : Operation} {β β' : BlockIndex → BlockIndex}
    {ω ω' : OpIndex → OpIndex} (hβ : ∀ b ∈ op.successors, β b = β' b)
    (hω : ∀ i ∈ op.inputs, ω i = ω' i) : op.renamed β ω = op.renamed β' ω' := by
  obtain ⟨action, inputs⟩ := op
  rw [renamed, renamed, List.map_congr_left hω]
  cases action with
  | goto t => rw [Action.renamed, Action.renamed, hβ t (by simp [successors])]
  | branch t f hint =>
    rw [Action.renamed, Action.renamed, hβ t (by simp [successors]), hβ f (by simp [successors])]
  | _ => rfl

end Operation

/-! ## Results that are breaches

When a sequence of steps breaks off, some step in it did. These lemmas take a breach apart as the
ones about success take a success apart. -/

theorem error_of_bind {ε α β : Type} {x : Except ε α} {f : α → Except ε β} {e : ε}
    (h : (x >>= f) = .error e) : x = .error e ∨ ∃ a, x = .ok a ∧ f a = .error e := by
  cases x with
  | error e' =>
    cases h
    exact .inl rfl
  | ok a => exact .inr ⟨a, rfl, h⟩

theorem error_of_mapM {ε α β : Type} {f : α → Except ε β} {e : ε} : ∀ {l : List α},
    l.mapM f = .error e → ∃ a ∈ l, f a = .error e
  | [], h => by cases h
  | a :: l, h => by
    rw [List.mapM_cons] at h
    obtain h | ⟨b, -, h⟩ := error_of_bind h
    · exact ⟨a, List.mem_cons_self, h⟩
    · obtain h | ⟨bs, -, h⟩ := error_of_bind h
      · obtain ⟨c, hc, hfc⟩ := error_of_mapM h
        exact ⟨c, List.mem_cons_of_mem a hc, hfc⟩
      · cases h

private theorem Operation.error_of_rename {ε : Type} {block : BlockIndex → Except ε BlockIndex}
    {value : OpIndex → Except ε OpIndex} {op : Operation} {e : ε}
    (h : op.rename block value = .error e) :
    (∃ b, block b = .error e) ∨ ∃ i, value i = .error e := by
  rw [rename] at h
  obtain h | ⟨a, -, h⟩ := error_of_bind h
  · obtain ⟨action, inputs⟩ := op
    cases action with
    | goto t =>
      obtain h | ⟨t', -, h⟩ := error_of_bind h
      · exact .inl ⟨t, h⟩
      · cases h
    | branch t f hint =>
      obtain h | ⟨t', -, h⟩ := error_of_bind h
      · exact .inl ⟨t, h⟩
      · obtain h | ⟨f', -, h⟩ := error_of_bind h
        · exact .inl ⟨f, h⟩
        · cases h
    | _ => cases h
  · obtain h | ⟨js, -, h⟩ := error_of_bind h
    · obtain ⟨i, -, hi⟩ := error_of_mapM h
      exact .inr ⟨i, hi⟩
    · cases h

namespace Graph

/-! ## Why a renumbering is refused

There are three checks, made in this order: no block is bound, the list has the right length, and it
is a permutation. Past these only a value that does not exist stands in the way. -/

/-- A renumbering by `perm` is refused with a breach: a block is bound, the number of entries is not
that of the blocks, an entry is no block or was there before, or an operation takes a value that
does not exist. -/
inductive Refuses (g : Graph) (perm : List BlockIndex) : Breach → Prop
  | bound {b : BlockIndex} : g.bound = some b → Refuses g perm .reorderWhileBound
  | size : g.bound = none → perm.length ≠ g.blockCount →
    Refuses g perm (.permutationSize perm.length g.blockCount)
  | entry {pre suf : List BlockIndex} {b : BlockIndex} : g.bound = none →
    perm.length = g.blockCount → perm = pre ++ b :: suf → pre.Nodup →
    (∀ c ∈ pre, c < g.blockCount) → b ∈ pre ∨ g.blockCount ≤ b →
    Refuses g perm (.notBijective pre.length b)
  | value {i j : OpIndex} {op : Operation} : g.bound = none →
    perm.Perm (List.range g.blockCount) → g.ops[i]? = some op → j ∈ op.inputs →
    g.opCount ≤ j → Refuses g perm .fault

private theorem error_of_foldlM_enter : ∀ {l : List BlockIndex} {k : Nat}
    {t : Array (Option Nat)} {e : Breach}, (l.zipIdx k).foldlM enter t = .error e →
      ∃ pre b suf, l = pre ++ b :: suf ∧ e = .notBijective (k + pre.length) b ∧ pre.Nodup ∧
        (∀ c ∈ pre, t[c]? = some none) ∧ (b ∈ pre ∨ t[b]? ≠ some none)
  | [], k, t, e, h => by cases h
  | c :: l, k, t, e, h => by
    rw [List.zipIdx_cons, List.foldlM_cons] at h
    obtain h | ⟨t₁, h₁, h⟩ := error_of_bind h
    · refine ⟨[], c, l, rfl, ?_, .nil, by simp, .inr fun hc ↦ ?_⟩
      · rw [enter] at h
        split at h
        · cases h
        · cases h
          rfl
      · rw [enter, hc] at h
        cases h
    · obtain ⟨hc, rfl⟩ := enter_eq_ok.mp h₁
      have hself : (t.setIfInBounds c (some k))[c]? = some (some k) :=
        Array.getElem?_setIfInBounds_self_of_lt (Array.getElem?_eq_some_iff.mp hc).1
      have hother : ∀ b : Nat, b ≠ c → (t.setIfInBounds c (some k))[b]? = t[b]? := fun b hb ↦
        Array.getElem?_setIfInBounds_ne (Ne.symm hb)
      obtain ⟨pre, b, suf, rfl, rfl, hnd, hfree, hb⟩ := error_of_foldlM_enter h
      have hcpre : c ∉ pre := fun hmem ↦ by
        have := hfree c hmem
        rw [hself] at this
        cases this
      refine ⟨c :: pre, b, suf, rfl, ?_, List.nodup_cons.mpr ⟨hcpre, hnd⟩,
        List.forall_mem_cons.mpr ⟨hc, fun d hd ↦ ?_⟩, ?_⟩
      · rw [List.length_cons, Nat.add_right_comm, Nat.add_assoc]
      · rw [← hother d fun heq ↦ hcpre (heq ▸ hd)]
        exact hfree d hd
      · by_cases hbc : b = c
        · exact .inl (hbc ▸ List.mem_cons_self)
        · rw [hother b hbc] at hb
          exact hb.imp_left (List.mem_cons_of_mem c)

private theorem newBlock_error {t : Array (Option Nat)} {b : BlockIndex} {e : Breach}
    (h : newBlock t b = .error e) : e = .fault := by
  rw [newBlock, lookup] at h
  cases ht : t[b]? with
  | none =>
    rw [ht] at h
    cases h
    rfl
  | some c =>
    rw [ht] at h
    cases c with
    | none =>
      cases h
      rfl
    | some c => cases h

private theorem lookup_error {α : Type} {t : Array α} {i : Nat} {e : Breach}
    (h : lookup t i = .error e) : e = .fault := by
  rw [lookup] at h
  split at h <;> cases h
  rfl

theorem length_moved_span (blk : Block) (start : Nat) :
    (moved blk start).span.length = blk.span.length := by
  have := congrArg List.length (moved_span blk start)
  rwa [Span.length_toList, List.length_range'] at this

private theorem moved_moved (blk : Block) (k start : Nat) :
    moved (moved blk k) start = moved blk start := by
  have hlen := length_moved_span blk k
  rw [moved, hlen, moved.eq_def blk start]
  split
  · rename_i hzero
    rw [moved, if_pos hzero]
  · rename_i hzero
    rw [moved, if_neg hzero]

variable {g g' : Graph} {perm : List BlockIndex}

theorem reorder_of_bound {b : BlockIndex} (hb : g.bound = some b) :
    g.reorder perm = .error .reorderWhileBound := by
  rw [reorder, if_pos (by rw [hb]; rfl)]
  rfl

theorem reorder_of_size (hb : g.bound = none) (hlen : perm.length ≠ g.blockCount) :
    g.reorder perm = .error (.permutationSize perm.length g.blockCount) := by
  rw [reorder, if_neg (by simp [hb]), if_pos hlen]
  rfl

private theorem eq_fault_of_reorder_error (hb : g.bound = none) (hlen : perm.length = g.blockCount)
    {t : Array (Option Nat)} (ht : positions g.blockCount perm = .ok t) {e : Breach}
    (h : g.reorder perm = .error e) : e = .fault := by
  rw [reorder_eq hb hlen, ht, ok_bind] at h
  obtain h | ⟨ops, -, h⟩ := error_of_bind h
  · obtain ⟨i, -, h⟩ := error_of_mapM h
    obtain h | ⟨op, -, h⟩ := error_of_bind h
    · exact lookup_error h
    · obtain ⟨b, h⟩ | ⟨j, h⟩ := Operation.error_of_rename h
      · exact newBlock_error h
      · exact lookup_error h
  · obtain h | ⟨edges, -, h⟩ := error_of_bind h
    · rw [Array.mapM_eq_mapM_toList] at h
      obtain h | ⟨l, -, h⟩ := error_of_bind h
      · obtain ⟨edge, -, h⟩ := error_of_mapM h
        obtain h | ⟨s, -, h⟩ := error_of_bind h
        · exact newBlock_error h
        · obtain h | ⟨s, -, h⟩ := error_of_bind h
          · exact newBlock_error h
          · cases h
      · cases h
    · cases h

/-- A list of the right length that is not a permutation has an entry that is out of range or comes
again. -/
private theorem refuses_of_positions_error (hb : g.bound = none) (hlen : perm.length = g.blockCount)
    {e : Breach} (h : positions g.blockCount perm = .error e) : g.Refuses perm e := by
  rw [positions_eq_foldlM] at h
  obtain ⟨pre, b, suf, hsplit, rfl, hnd, hfree, hbad⟩ := error_of_foldlM_enter h
  have hfree_iff : ∀ c : BlockIndex,
      (Array.replicate g.blockCount (none : Option Nat))[c]? = some none ↔
        c < g.blockCount := fun c ↦ by
    rw [Array.getElem?_replicate]
    split <;> simp_all
  rw [Nat.zero_add]
  refine .entry hb hlen hsplit hnd (fun c hc ↦ (hfree_iff c).mp (hfree c hc)) ?_
  exact hbad.imp_right fun hne ↦ Nat.not_lt.mp fun hlt ↦ hne ((hfree_iff b).mpr hlt)

variable (hg : g.Sound)

include hg

/-- A renumbering that does not go through has a reason, which its breach names. -/
theorem refuses_of_reorder_error {e : Breach} (h : g.reorder perm = .error e) :
    g.Refuses perm e := by
  cases hb : g.bound with
  | some b =>
    rw [reorder_of_bound hb] at h
    cases h
    exact .bound hb
  | none =>
    by_cases hlen : perm.length = g.blockCount
    · by_cases hperm : perm.Perm (List.range g.blockCount)
      -- with a permutation only a value that does not exist can be in the way
      · have hval : ¬g.ValuesExist := fun hval ↦ by
          rw [reorder_of_perm hg hb hperm hval] at h
          cases h
        obtain ⟨i, op, hop, j, hj, hlt⟩ : ∃ (i : OpIndex) (op : Operation),
            g.ops[i]? = some op ∧ ∃ j ∈ op.inputs, ¬j < g.opCount := by
          simpa only [ValuesExist, not_forall, exists_prop] using hval
        obtain ⟨t, ht⟩ := exists_positions hperm
        obtain rfl := eq_fault_of_reorder_error hb hlen ht h
        exact .value hb hperm hop hj (Nat.not_lt.mp hlt)
      · cases ht : positions g.blockCount perm with
        | ok t => exact absurd (positions_spec hlen ht).1 hperm
        | error e' =>
          rw [reorder_eq hb hlen, ht] at h
          cases h
          exact refuses_of_positions_error hb hlen ht
    · rw [reorder_of_size hb hlen] at h
      cases h
      exact .size hb hlen

theorem exists_reorder_iff : (∃ g', g.reorder perm = .ok g') ↔
    g.bound = none ∧ perm.Perm (List.range g.blockCount) ∧ g.ValuesExist :=
  ⟨fun ⟨_, h⟩ ↦ of_reorder_ok hg h,
    fun ⟨hb, hperm, hval⟩ ↦ ⟨_, reorder_of_perm hg hb hperm hval⟩⟩

private theorem reorder_eq_fault (hb : g.bound = none) (hperm : perm.Perm (List.range g.blockCount))
    (hval : ¬g.ValuesExist) : g.reorder perm = .error .fault := by
  cases h : g.reorder perm with
  | ok g' => exact (hval fun hop ↦ (of_reorder_ok hg h).2.2 hop).elim
  | error e =>
    cases refuses_of_reorder_error hg h with
    | bound hb' => rw [hb] at hb'; cases hb'
    | size _ hlen => exact absurd (by rw [hperm.length_eq, List.length_range]) hlen
    | @entry pre suf b _ _ hsplit _ _ hbad =>
      have hmem : b ∈ perm := hsplit ▸ List.mem_append_right _ List.mem_cons_self
      rcases hbad with hbad | hbad
      · have hnd : perm.Nodup := hperm.nodup_iff.mpr List.nodup_range
        rw [hsplit] at hnd
        exact absurd List.mem_cons_self (List.disjoint_of_nodup_append hnd hbad)
      · exact absurd (List.mem_range.mp (hperm.mem_iff.mp hmem)) (Nat.not_lt.mpr hbad)
    | value => rfl

/-! ## What a renumbered graph has -/

/-- `g'` is `g` with block `perm[i]` as block `i`. A block is renamed to its position in `perm`, and
an operation to its position among the operations of the blocks in this order. -/
structure ReorderedBy (g g' : Graph) (perm : List BlockIndex) : Prop where
  name_eq : g'.name = g.name
  bound_eq : g'.bound = none
  blockCount_eq : g'.blockCount = g.blockCount
  opCount_eq : g'.opCount = g.opCount
  /-- The two renamings are permutations. -/
  blocks_perm : ((List.range g.blockCount).map perm.idxOf).Perm (List.range g.blockCount)
  ops_perm : ((List.range g.opCount).map (g.opsOf perm).idxOf).Perm (List.range g.opCount)
  /-- Block `i` is block `perm[i]` with its operations and its neighbours renamed, in order. -/
  block : ∀ {i : Nat} {b : BlockIndex}, perm[i]? = some b → perm.idxOf b = i ∧
    ∃ blk blk', g.blocks[b]? = some blk ∧ g'.blocks[i]? = some blk' ∧ blk'.kind = blk.kind ∧
      blk'.deferred = blk.deferred ∧
      (g'.span i).toList = (g.span b).toList.map (g.opsOf perm).idxOf ∧
      g'.successors i = (g.successors b).map perm.idxOf ∧
      g'.predecessors i = (g.predecessors b).map perm.idxOf
  /-- Operations refer to the blocks and values that they referred to before. -/
  op : ∀ {i : OpIndex} {op : Operation}, g.ops[i]? = some op →
    g'.ops[(g.opsOf perm).idxOf i]? = some (op.renamed perm.idxOf (g.opsOf perm).idxOf)
  owner : ∀ {i : OpIndex} {b : BlockIndex}, g.blockOf i = .ok b →
    g'.blockOf ((g.opsOf perm).idxOf i) = .ok (perm.idxOf b)
  /-- Operations are numbered in the order of the blocks. -/
  numbered : g'.opsOf (List.range g'.blockCount) = List.range g'.opCount
  /-- The edges keep their order. -/
  edges_eq : g'.edges.toList
    = g.edges.toList.map fun e ↦ ⟨perm.idxOf e.source, perm.idxOf e.target⟩
  /-- If the entry stays the first block, so do the violations under their new names. -/
  violations_perm : perm.head? = Graph.entry? g →
    g'.violations.Perm (g.violations.map (·.renamed perm.idxOf (g.opsOf perm).idxOf))

theorem reorderedBy_of_reorder (h : g.reorder perm = .ok g') : g.ReorderedBy g' perm := by
  obtain ⟨-, hperm, hval⟩ := of_reorder_ok hg h
  have hren := reorder_renamed hg h
  have hnd : perm.Nodup := hperm.nodup_iff.mpr List.nodup_range
  have hlt : ∀ b ∈ perm, b < g.blockCount := fun b hb ↦ List.mem_range.mp (hperm.mem_iff.mp hb)
  exact {
    name_eq := hren.name_eq
    bound_eq := hren.bound_eq'
    blockCount_eq := hren.blockCount_eq
    opCount_eq := hren.opCount_eq
    blocks_perm := hren.blockCount_eq ▸ hren.range_perm_blocks
    ops_perm := hren.opCount_eq ▸ hren.range_perm_ops
    block := fun {i b} hi ↦ by
      obtain ⟨hilt, rfl⟩ := List.getElem?_eq_some_iff.mp hi
      have hidx := hnd.idxOf_getElem i hilt
      have hb := hlt _ (List.getElem_mem hilt)
      obtain ⟨blk, hblk⟩ := exists_block hb
      obtain ⟨blk', hblk', hkind, hdeferred, -⟩ := hren.block hblk
      refine ⟨hidx, blk, blk', hblk, hidx ▸ hblk', hkind, hdeferred, ?_⟩
      have hspan := hren.span hb
      have hsucc := hren.successors_eq hg hb
      have hpred := hren.predecessors_eq hg hb
      rw [hidx] at hspan hsucc hpred
      exact ⟨hspan, hsucc, hpred⟩
    op := hren.op
    owner := fun hi ↦ blockOf_eq_ok.mpr (hren.owner (blockOf_eq_ok.mp hi))
    numbered := opsOf_range_of_reorder hg h
    edges_eq := hren.edges
    violations_perm := fun hhead ↦ by
      refine hren.violations_perm hg (fun hpos ↦ ?_) hval
      rw [ entry?, if_neg (by simpa [blockCount, Nat.pos_iff_ne_zero] using hpos)] at hhead
      obtain ⟨tail, rfl⟩ := List.head?_eq_some_iff.mp hhead
      exact List.idxOf_cons_self }

/-! ## Two renumberings in a row

Both renumberings are read off the list of all operations in its second order. The place of a place
is a place, which is what makes the two composed maps equal to the one of the composed permutation.
-/

section Twice

variable {p q r : List BlockIndex} (hp : p.Perm (List.range g.blockCount))

include hp

omit hg in
private theorem renumbered_place : ∀ {l : List BlockIndex} (start : Nat),
    (∀ b ∈ l, b < g.blockCount) → (g.renumbered p).place start (l.map p.idxOf) = g.place start l
  | [], _, _ => rfl
  | b :: l, start, hl => by
    rw [List.forall_mem_cons] at hl
    obtain ⟨blk, hblk⟩ := exists_block hl.1
    obtain ⟨pre, -, -, -, hblk'⟩ := renumbered_block hp hblk
    have hmoved := moved_moved blk (g.opsOf pre).length start
    rw [moved, length_moved_span] at hmoved
    simp only [List.map_cons, place, hblk, hblk', length_moved_span, renumbered_place _ hl.2,
      hmoved]
    rw [moved]

omit hg in
private theorem renumbered_span_length {b : BlockIndex} (hb : b < g.blockCount) :
    ((g.renumbered p).span (p.idxOf b)).length = (g.span b).length := by
  obtain ⟨blk, hblk⟩ := exists_block hb
  obtain ⟨pre, -, -, -, hblk'⟩ := renumbered_block hp hblk
  rw [span_of_block hblk', span_of_block hblk, length_moved_span]

omit hg in
private theorem renumbered_ownersOf : ∀ {l : List BlockIndex} (k : Nat),
    (∀ b ∈ l, b < g.blockCount) → (g.renumbered p).ownersOf k (l.map p.idxOf) = g.ownersOf k l
  | [], _, _ => rfl
  | b :: l, k, hl => by
    rw [List.forall_mem_cons] at hl
    have ih := renumbered_ownersOf (k + 1) hl.2
    rw [ownersOf, ownersOf] at ih
    rw [ownersOf, ownersOf, List.map_cons, List.zipIdx_cons, List.zipIdx_cons, List.flatMap_cons,
      List.flatMap_cons, ih]
    simp only [renumbered_span_length hp hl.1]

variable (hq : q.Perm (List.range g.blockCount)) (hr : ∀ i : Nat, r[i]? = q[i]?.bind (p[·]?))

include hr

omit hg in
/-- The second permutation is the combined one under the new names. -/
theorem map_idxOf_combined (hq : ∀ b ∈ q, b < g.blockCount) : r.map p.idxOf = q := by
  have hlen : p.length = g.blockCount := by rw [hp.length_eq, List.length_range]
  refine List.ext_getElem? fun i ↦ ?_
  rw [List.getElem?_map, hr]
  cases hi : q[i]? with
  | none => rfl
  | some b =>
    have hb : b < p.length := hlen ▸ hq b (List.mem_of_getElem? hi)
    rw [Option.bind_some, List.getElem?_eq_getElem hb, Option.map_some,
      (hp.nodup_iff.mpr List.nodup_range).idxOf_getElem b hb]

include hq

omit hg in
theorem combined_perm : r.Perm (List.range g.blockCount) := by
  have hmap := map_idxOf_combined hp hr fun b hb ↦ List.mem_range.mp (hq.mem_iff.mp hb)
  have hnd : r.Nodup := .of_map p.idxOf (hmap ▸ hq.nodup_iff.mpr List.nodup_range)
  have hlt : ∀ b ∈ r, b ∈ List.range g.blockCount := fun b hb ↦ by
    obtain ⟨i, hi⟩ := List.mem_iff_getElem?.mp hb
    rw [hr, Option.bind_eq_some_iff] at hi
    obtain ⟨c, -, hc⟩ := hi
    exact hp.mem_iff.mp (List.mem_of_getElem? hc)
  refine (hnd.subperm hlt).perm_of_length_le (Nat.le_of_eq ?_)
  rw [← hq.length_eq, ← hmap, List.length_map]

private theorem renumbered_renumbered (hb : g.bound = none) (hval : g.ValuesExist) :
    (g.renumbered p).renumbered q = g.renumbered r := by
  have hrperm := combined_perm hp hq hr
  have hlt : ∀ b ∈ r, b < g.blockCount := fun b hb ↦ List.mem_range.mp (hrperm.mem_iff.mp hb)
  have hmap := map_idxOf_combined hp hr fun b hb ↦ List.mem_range.mp (hq.mem_iff.mp hb)
  have hren := renumbered_renamed hg hp hb
  have hops : (g.renumbered p).opsOf q = (g.opsOf r).map (g.opsOf p).idxOf :=
    hmap ▸ hren.opsOf_eq hlt
  have hblock : ∀ b < g.blockCount, q.idxOf (p.idxOf b) = r.idxOf b := fun b hb ↦ by
    rw [← hmap]
    exact idxOf_map fun c hc ↦ hren.block_inj (hlt c hc) hb
  have hvalue : ∀ i < g.opCount,
      ((g.renumbered p).opsOf q).idxOf ((g.opsOf p).idxOf i) = (g.opsOf r).idxOf i := fun i hi ↦ by
    rw [hops]
    exact idxOf_map fun j hj ↦ hren.op_inj ((mem_opsOf hg hrperm).mp hj) hi
  rw [renumbered, renumbered.eq_def g r, Graph.mk.injEq]
  refine ⟨rfl, congrArg List.toArray ?_, congrArg List.toArray ?_, congrArg List.toArray ?_, ?_,
    rfl⟩
  · rw [hops, List.map_map, ← hops]
    refine List.map_congr_left fun i hi ↦ ?_
    obtain ⟨op, hop⟩ := exists_op ((mem_opsOf hg hrperm).mp hi)
    rw [Function.comp_apply, hren.op hop, hop, Option.getD_some, Option.getD_some,
      Operation.renamed_renamed]
    exact Operation.renamed_congr (fun t ht ↦ hblock t (hg.successor_lt hop ht))
      fun j hj ↦ hvalue j (hval hop j hj)
  · rw [← hmap, renumbered_ownersOf hp 0 hlt]
  · rw [← hmap, renumbered_place hp 0 hlt]
  · rw [renumbered, Array.map_map]
    refine Array.map_congr_left fun e he ↦ ?_
    have he' := hg.edge_lt (Array.mem_toList_iff.mpr he)
    rw [Function.comp_apply, hblock _ he'.1, hblock _ he'.2]

/-- Two renumberings in a row come to the same as one, also where they are refused. -/
theorem reorder_bind_reorder : (g.reorder p >>= fun g' ↦ g'.reorder q) = g.reorder r := by
  have hrperm := combined_perm hp hq hr
  cases hb : g.bound with
  | some b =>
    rw [reorder_of_bound hb, reorder_of_bound hb]
    rfl
  | none =>
    by_cases hval : g.ValuesExist
    · have hren := renumbered_renamed hg hp hb
      have hval' : (g.renumbered p).ValuesExist := fun {i' op'} hop' j' hj' ↦ by
        obtain ⟨i, hi, rfl⟩ := hren.op_surj (hren.opCount_eq ▸ lt_opCount hop')
        obtain ⟨op, hop, rfl⟩ := hren.op_of_renamed hi hop'
        obtain ⟨j, hj, rfl⟩ := List.mem_map.mp hj'
        exact hren.opCount_eq ▸ hren.op_lt (hval hop j hj)
      rw [reorder_of_perm hg hb hp hval, ok_bind,
        reorder_of_perm (hren.sound hg) hren.bound_eq' (hren.blockCount_eq ▸ hq) hval',
        renumbered_renumbered hg hp hq hr hb hval, reorder_of_perm hg hb hrperm hval]
    · rw [reorder_eq_fault hg hb hp hval, reorder_eq_fault hg hb hrperm hval]
      rfl

end Twice

end Graph

end Flowgraph
