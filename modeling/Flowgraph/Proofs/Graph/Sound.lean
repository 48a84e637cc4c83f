import Flowgraph.Graph.Reorder
import Mathlib.Data.List.Basic
import Mathlib.Data.List.Count

/-!
# The shape of a graph under construction

A graph is a handful of tables that refer to each other: the spans of the blocks and the owners of
the operations tell the same story from two sides, and the list of edges repeats what the
terminators say. `Sound` collects what keeps the tables together. It holds of the empty graph and
survives every operation that builds or adjusts a graph, renumbering apart, which has a module of
its own.

## What soundness is for

Passes read spans and successors forward and owners and predecessors backward. Every argument that
changes direction goes through `Sound.mem_span_iff` or `Sound.edge_count`. The latter counts, since
a branch whose sides coincide is two edges.
-/

namespace Flowgraph

/-! ## Results

A computation that may stop at a breach and does not has come through each of its steps. -/

theorem exists_of_bind_ok {ε α β : Type} {x : Except ε α} {f : α → Except ε β} {b : β}
    (h : (x >>= f) = .ok b) : ∃ a, x = .ok a ∧ f a = .ok b := by
  cases x with
  | error e => cases h
  | ok a => exact ⟨a, rfl, h⟩

theorem ok_bind {ε α β : Type} (a : α) (f : α → Except ε β) :
    ((.ok a : Except ε α) >>= f) = f a := rfl

theorem mapError_eq_ok {ε ε' α : Type} {f : ε → ε'} {x : Except ε α} {a : α}
    (h : x.mapError f = .ok a) : x = .ok a := by
  cases x with
  | error e => cases h
  | ok a' =>
    cases h
    rfl

theorem forall₂_of_mapM_ok {ε α β : Type} {f : α → Except ε β} : ∀ {l : List α} {l' : List β},
    l.mapM f = .ok l' → List.Forall₂ (fun a b ↦ f a = .ok b) l l'
  | [], l', h => by
    rw [List.mapM_nil] at h
    cases h
    exact .nil
  | a :: l, l', h => by
    rw [List.mapM_cons] at h
    obtain ⟨b, hb, h⟩ := exists_of_bind_ok h
    obtain ⟨bs, hbs, h⟩ := exists_of_bind_ok h
    cases h
    exact .cons hb (forall₂_of_mapM_ok hbs)

theorem forall₂_of_mapM_some {α β : Type} {f : α → Option β} : ∀ {l : List α} {l' : List β},
    l.mapM f = some l' → List.Forall₂ (fun x y ↦ f x = some y) l l'
  | [], l', h => by
    cases h
    exact .nil
  | x :: l, l', h => by
    rw [List.mapM_cons] at h
    obtain ⟨y, hy, h⟩ := Option.bind_eq_some_iff.mp h
    obtain ⟨ys, hys, h⟩ := Option.bind_eq_some_iff.mp h
    cases h
    exact .cons hy (forall₂_of_mapM_some hys)

theorem mapM_eq_ok {ε α β : Type} {f : α → Except ε β} {f' : α → β} : ∀ {l : List α},
    (∀ a ∈ l, f a = .ok (f' a)) → l.mapM f = .ok (l.map f')
  | [], _ => rfl
  | a :: l, h => by
    rw [List.mapM_cons, h a List.mem_cons_self,
      mapM_eq_ok fun b hb ↦ h b (List.mem_cons_of_mem a hb)]
    rfl

/-- What every step of a fold keeps, the fold keeps. -/
theorem foldlM_keeps {ε α β : Type} {f : β → α → Except ε β} {P : β → Prop}
    (hstep : ∀ {b a b'}, P b → f b a = .ok b' → P b') : ∀ {l : List α} {b b' : β},
    P b → l.foldlM f b = .ok b' → P b'
  | [], b, b', hb, h => by
    cases h
    exact hb
  | a :: l, b, b', hb, h => by
    rw [List.foldlM_cons] at h
    obtain ⟨b₁, h₁, h⟩ := exists_of_bind_ok h
    exact foldlM_keeps hstep (hstep hb h₁) h

/-! ## Spans

A span is the list of the numbers from its first on, and its last element is the number before its
stop. Growing a span by one adds the next number at the end. -/

namespace Span

theorem mem_toList {s : Span} {i : OpIndex} : i ∈ s.toList ↔ s.first ≤ i ∧ i < s.stop := by
  rw [toList, List.mem_range'_1, length]
  lia

theorem nodup_toList (s : Span) : s.toList.Nodup := List.nodup_range'

@[simp] theorem length_toList (s : Span) : s.toList.length = s.length := List.length_range'

@[simp] theorem toList_empty : Span.empty.toList = [] := rfl

theorem last?_eq_some {s : Span} {i : OpIndex} :
    s.last? = some i ↔ s.first < s.stop ∧ i + 1 = s.stop := by
  rw [last?, length]
  split
  · simp only [reduceCtorEq, false_iff]
    lia
  · rw [Option.some.injEq]
    lia

theorem last?_eq_none {s : Span} : s.last? = none ↔ s.toList = [] := by
  rw [last?, ← List.length_eq_zero_iff, length_toList]
  split <;> simp_all

theorem last?_mem {s : Span} {i : OpIndex} (h : s.last? = some i) : i ∈ s.toList := by
  obtain ⟨hpos, hi⟩ := last?_eq_some.mp h
  exact mem_toList.mpr ⟨by lia, by lia⟩

theorem toList_push {first stop : Nat} (h : first ≤ stop) :
    (Span.mk first (stop + 1)).toList = (Span.mk first stop).toList ++ [stop] := by
  have hlen : stop + 1 - first = (stop - first) + 1 := by lia
  have hlast : first + 1 * (stop - first) = stop := by lia
  simp only [toList, length]
  rw [hlen, List.range'_concat, hlast]

theorem toList_eq_append_last {s : Span} {i : OpIndex} (h : s.last? = some i) :
    s.toList = (Span.mk s.first i).toList ++ [i] := by
  obtain ⟨hpos, hi⟩ := last?_eq_some.mp h
  have hs : s = ⟨s.first, i + 1⟩ := by rw [hi]
  rw [hs]
  exact toList_push (by lia)

theorem last?_eq_getLast? (s : Span) : s.last? = s.toList.getLast? := by
  cases hi : s.last? with
  | none => rw [last?_eq_none.mp hi, List.getLast?_nil]
  | some i => rw [toList_eq_append_last hi, List.getLast?_concat]

end Span

namespace Graph

variable {g : Graph}

/-! ## Reading

What it means that an operation or a block can be read, and how spans, successors and predecessors
follow from the tables. -/

theorem op_eq_ok {i : OpIndex} {op : Operation} : g.op i = .ok op ↔ g.ops[i]? = some op := by
  rw [Graph.op]
  cases g.ops[i]? <;> simp

theorem block_eq_ok {b : BlockIndex} {blk : Block} :
    g.block b = .ok blk ↔ g.blocks[b]? = some blk := by
  rw [Graph.block]
  cases g.blocks[b]? <;> simp

theorem blockOf_eq_ok {i : OpIndex} {b : BlockIndex} :
    g.blockOf i = .ok b ↔ g.owners[i]? = some b := by
  rw [blockOf]
  cases g.owners[i]? <;> simp

theorem span_of_block {b : BlockIndex} {blk : Block} (h : g.blocks[b]? = some blk) :
    g.span b = blk.span := by
  rw [span, h]

private theorem span_of_missing {b : BlockIndex} (h : g.blocks[b]? = none) : g.span b = .empty := by
  rw [span, h]

theorem toList_span_of_le {b : BlockIndex} (h : g.blockCount ≤ b) : (g.span b).toList = [] := by
  rw [span_of_missing (Array.getElem?_eq_none h), Span.toList_empty]

theorem exists_block {b : BlockIndex} (h : b < g.blockCount) : ∃ blk, g.blocks[b]? = some blk :=
  ⟨_, Array.getElem?_eq_getElem h⟩

theorem exists_op {i : OpIndex} (h : i < g.opCount) : ∃ op, g.ops[i]? = some op :=
  ⟨_, Array.getElem?_eq_getElem h⟩

theorem lt_blockCount {b : BlockIndex} {blk : Block} (h : g.blocks[b]? = some blk) :
    b < g.blockCount := (Array.getElem?_eq_some_iff.mp h).1

theorem lt_blockCount_of_mem_span {i : OpIndex} {b : BlockIndex} (hi : i ∈ (g.span b).toList) :
    b < g.blockCount := by
  by_contra hb
  rw [toList_span_of_le (Nat.le_of_not_lt hb)] at hi
  exact absurd hi List.not_mem_nil

theorem lt_opCount {i : OpIndex} {op : Operation} (h : g.ops[i]? = some op) : i < g.opCount :=
  (Array.getElem?_eq_some_iff.mp h).1

/-- The predecessors of a block count its incoming edges. -/
theorem count_predecessors (p b : BlockIndex) :
    (g.predecessors b).count p = g.edges.toList.count ⟨p, b⟩ := by
  rw [predecessors]
  induction g.edges.toList with
  | nil => rfl
  | cons e l ih =>
    obtain ⟨s, t⟩ := e
    rw [List.filter_cons, List.count_cons, ← ih]
    by_cases ht : t = b
    · subst ht
      by_cases hs : s = p <;> simp [hs]
    · simp [ht]

theorem mem_predecessors {p b : BlockIndex} :
    p ∈ g.predecessors b ↔ (⟨p, b⟩ : Edge) ∈ g.edges.toList := by
  rw [← List.count_pos_iff, ← List.count_pos_iff, count_predecessors]

theorem successors_of_terminator {b : BlockIndex} {i : OpIndex} {op : Operation}
    (hi : g.terminator? b = some i) (hop : g.ops[i]? = some op) :
    g.successors b = op.successors := by
  simp only [successors, hi, Option.bind_some, hop]

theorem successors_of_empty {b : BlockIndex} (h : (g.span b).toList = []) :
    g.successors b = [] := by
  simp only [successors, terminator?, Span.last?_eq_none.mpr h, Option.bind_none]

/-- Successors are those of an operation of the block. -/
theorem exists_op_of_mem_successors {b t : BlockIndex} (h : t ∈ g.successors b) :
    ∃ i op, g.terminator? b = some i ∧ g.ops[i]? = some op ∧ t ∈ op.successors := by
  rw [successors] at h
  cases hi : g.terminator? b with
  | none => simp [hi] at h
  | some i =>
    cases hop : g.ops[i]? with
    | none => simp [hi, hop] at h
    | some op => exact ⟨i, op, rfl, hop, by simpa [hi, hop] using h⟩

end Graph

/-! ## Operations

Only jumps have successors, only terminators are jumps, and a phi is neither. Every operation has at
most two successors. -/

namespace Operation

theorem isTerminator_of_mem_successors {op : Operation} {t : BlockIndex}
    (h : t ∈ op.successors) : op.isTerminator = true := by
  rw [successors] at h
  rw [isTerminator]
  split at h <;> simp_all

theorem successors_eq_nil {op : Operation} (h : op.isTerminator = false) :
    op.successors = [] := by
  rw [isTerminator] at h
  rw [successors]
  split at h <;> simp_all

theorem successors_of_not_isJump {op : Operation} (h : op.isJump = false) : op.successors = [] := by
  rw [isJump] at h
  rw [successors]
  split at h <;> simp_all

theorem length_successors_le (op : Operation) : op.successors.length ≤ 2 := by
  obtain ⟨a, inputs⟩ := op
  cases a <;> simp [successors]

theorem isTerminator_of_isPhi {op : Operation} (h : op.isPhi = true) :
    op.isTerminator = false := by
  rw [isPhi] at h
  rw [isTerminator]
  split at h <;> simp_all

theorem isTerminator_of_isJump {op : Operation} (h : op.isJump = true) :
    op.isTerminator = true := by
  rw [isJump] at h
  rw [isTerminator]
  split at h <;> simp_all

end Operation

namespace Graph

/-! ## Soundness -/

/-- The tables of a graph agree with each other. -/
structure Sound (g : Graph) : Prop where
  /-- Every operation has an owner. -/
  owners_size : g.owners.size = g.ops.size
  /-- The span of a block holds exactly the operations that the block owns. -/
  mem_span_iff : ∀ i b, i ∈ (g.span b).toList ↔ g.owners[i]? = some b
  /-- A block that has a span has operations. -/
  span_pos : ∀ {b : BlockIndex} {blk : Block} {s : Span}, g.blocks[b]? = some blk →
    blk.span? = some s → s.first < s.stop
  /-- A terminator comes last, and closes its block. -/
  ends : ∀ {b : BlockIndex} {i : OpIndex} {op : Operation}, i ∈ (g.span b).toList →
    g.ops[i]? = some op → op.isTerminator = true → g.terminator? b = some i ∧ g.bound ≠ some b
  /-- A block that has operations and is not bound ends in a terminator. -/
  closed : ∀ {b : BlockIndex} {i : OpIndex} {op : Operation}, g.terminator? b = some i →
    g.bound ≠ some b → g.ops[i]? = some op → op.isTerminator = true
  /-- The edges are those of the terminators. -/
  edge_count : ∀ p b, g.edges.toList.count ⟨p, b⟩ = (g.successors p).count b
  /-- Terminators lead to blocks of the graph. -/
  target_lt : ∀ {b t : BlockIndex}, t ∈ g.successors b → t < g.blockCount
  /-- The bound block exists. -/
  bound_lt : ∀ {b : BlockIndex}, g.bound = some b → b < g.blockCount
  /-- The operations of the bound block are the latest. -/
  bound_stop : ∀ {b : BlockIndex} {blk : Block} {s : Span}, g.bound = some b →
    g.blocks[b]? = some blk → blk.span? = some s → s.stop = g.opCount
  ops_le : g.opCount ≤ noHandle
  blocks_le : g.blockCount ≤ noHandle

namespace Sound

variable {g : Graph} (h : g.Sound)

include h

theorem lt_of_mem_span {i : OpIndex} {b : BlockIndex} (hi : i ∈ (g.span b).toList) :
    i < g.opCount := by
  have hown := (h.mem_span_iff i b).mp hi
  rw [opCount, ← h.owners_size]
  exact (Array.getElem?_eq_some_iff.mp hown).1

theorem span_disjoint {i : OpIndex} {b c : BlockIndex} (hb : i ∈ (g.span b).toList)
    (hc : i ∈ (g.span c).toList) : b = c := by
  rw [h.mem_span_iff] at hb hc
  exact Option.some.inj (hb.symm.trans hc)

theorem exists_owner {i : OpIndex} (hi : i < g.opCount) : ∃ b, i ∈ (g.span b).toList := by
  have hlt : i < g.owners.size := by rwa [h.owners_size]
  exact ⟨_, (h.mem_span_iff i _).mpr (Array.getElem?_eq_getElem hlt)⟩

theorem count_predecessors_eq (p b : BlockIndex) :
    (g.predecessors b).count p = (g.successors p).count b := by
  rw [count_predecessors, h.edge_count]

theorem mem_predecessors_iff {p b : BlockIndex} : p ∈ g.predecessors b ↔ b ∈ g.successors p := by
  rw [← List.count_pos_iff, ← List.count_pos_iff, h.count_predecessors_eq]

theorem edge_lt {e : Edge} (he : e ∈ g.edges.toList) :
    e.source < g.blockCount ∧ e.target < g.blockCount := by
  have hmem : e.target ∈ g.successors e.source :=
    h.mem_predecessors_iff.mp (mem_predecessors.mpr he)
  obtain ⟨i, op, hi, -, -⟩ := exists_op_of_mem_successors hmem
  exact ⟨lt_blockCount_of_mem_span (Span.last?_mem hi), h.target_lt hmem⟩

end Sound

/-! ## Building

What each step of building does, in one equation, and that it keeps a graph sound. -/

theorem sound_empty (name : ByteArray) : (Graph.empty name).Sound where
  owners_size := rfl
  mem_span_iff i b := by simp [Graph.empty, span]
  span_pos hb := by simp [Graph.empty] at hb
  ends hi := by simp [Graph.empty, span] at hi
  closed hi := by simp [Graph.empty, terminator?, span, Span.last?, Span.empty, Span.length] at hi
  edge_count p b := by
    simp [Graph.empty, successors, terminator?, span, Span.last?, Span.empty, Span.length]
  target_lt ht := by
    simp [Graph.empty, successors, terminator?, span, Span.last?, Span.empty, Span.length] at ht
  bound_lt hb := by simp [Graph.empty] at hb
  bound_stop hb := by simp [Graph.empty] at hb
  ops_le := Nat.zero_le _
  blocks_le := Nat.zero_le _

theorem addBlock_eq_ok {g g' : Graph} {kind : BlockKind} {deferred : Bool}
    (h : g.addBlock kind deferred = .ok g') :
    g.blockCount < noHandle ∧ g' = { g with blocks := g.blocks.push ⟨kind, deferred, none⟩ } := by
  rw [addBlock] at h
  split at h
  · cases h
  · cases h
    exact ⟨by omega, rfl⟩

theorem span_push_empty (g : Graph) (kind : BlockKind) (deferred : Bool) (b : BlockIndex) :
    span { g with blocks := g.blocks.push ⟨kind, deferred, none⟩ } b = g.span b := by
  rw [span, span, Array.getElem?_push]
  by_cases hb : b = g.blocks.size
  · subst hb
    simp [Block.span]
  · rw [if_neg hb]

theorem successors_congr {g g' : Graph} {b : BlockIndex} (hops : g'.ops = g.ops)
    (hspan : g'.span b = g.span b) : g'.successors b = g.successors b := by
  rw [successors, successors, terminator?, terminator?, hspan, hops]

theorem Sound.addBlock {g g' : Graph} {kind : BlockKind} {deferred : Bool} (hg : g.Sound)
    (h : g.addBlock kind deferred = .ok g') : g'.Sound := by
  obtain ⟨hlt, rfl⟩ := addBlock_eq_ok h
  have hspan := span_push_empty g kind deferred
  have hsucc : ∀ b, successors { g with blocks := g.blocks.push ⟨kind, deferred, none⟩ } b
      = g.successors b := fun b ↦ successors_congr rfl (hspan b)
  have hnew : ∀ {b : BlockIndex} {blk : Block} {s : Span},
      (g.blocks.push ⟨kind, deferred, none⟩)[b]? = some blk → blk.span? = some s →
      g.blocks[b]? = some blk := by
    intro b blk s hb hs
    rw [Array.getElem?_push] at hb
    split at hb
    · cases hb
      simp at hs
    · exact hb
  exact {
    owners_size := hg.owners_size
    mem_span_iff := fun i b ↦ by rw [hspan]; exact hg.mem_span_iff i b
    span_pos := fun hb hs ↦ hg.span_pos (hnew hb hs) hs
    ends := fun {b i op} hi hop hend ↦ by
      rw [hspan] at hi
      rw [terminator?, hspan]
      exact hg.ends hi hop hend
    closed := fun {b i op} hi hb hop ↦ by
      rw [terminator?, hspan] at hi
      exact hg.closed hi hb hop
    edge_count := fun p b ↦ by rw [hsucc]; exact hg.edge_count p b
    target_lt := fun {b t} ht ↦ by
      rw [hsucc] at ht
      have := hg.target_lt ht
      simp only [blockCount, Array.size_push] at this ⊢
      lia
    bound_lt := fun {b} hb ↦ by
      have := hg.bound_lt hb
      simp only [blockCount, Array.size_push] at this ⊢
      lia
    bound_stop := fun hb hblk hs ↦ hg.bound_stop hb (hnew hblk hs) hs
    ops_le := hg.ops_le
    blocks_le := by
      simp only [blockCount, Array.size_push] at hlt ⊢
      exact hlt }

theorem bind_eq_ok {g g' : Graph} {b : BlockIndex} (h : g.bind b = .ok g') :
    g.bound = none ∧ (∃ blk, g.blocks[b]? = some blk ∧ blk.span? = none) ∧
      g' = { g with bound := some b } := by
  rw [bind] at h
  split at h
  · cases h
  · rename_i hbound
    obtain ⟨blk, hblk, h⟩ := exists_of_bind_ok h
    split at h
    · cases h
    · rename_i hs
      cases h
      exact ⟨hbound, ⟨blk, block_eq_ok.mp hblk, by simpa using hs⟩, rfl⟩

theorem Sound.bind {g g' : Graph} {b : BlockIndex} (hg : g.Sound) (h : g.bind b = .ok g') :
    g'.Sound := by
  obtain ⟨hbound, ⟨blk, hblk, hspan⟩, rfl⟩ := bind_eq_ok h
  -- a block can only be opened while it has no operations, and hence no terminator
  have hempty : (g.span b).toList = [] := by
    rw [span_of_block hblk, Block.span, hspan]
    rfl
  exact {
    owners_size := hg.owners_size
    mem_span_iff := hg.mem_span_iff
    span_pos := hg.span_pos
    ends := fun {c i op} hi hop hend ↦ by
      refine ⟨(hg.ends hi hop hend).1, ?_⟩
      rintro heq
      cases heq
      have hi' : i ∈ (g.span b).toList := hi
      rw [hempty] at hi'
      cases hi'
    closed := fun {c i op} hi _ hop ↦ hg.closed hi (by rw [hbound]; simp) hop
    edge_count := hg.edge_count
    target_lt := hg.target_lt
    bound_lt := fun heq ↦ by
      cases heq
      exact lt_blockCount hblk
    bound_stop := fun {c blk' s} heq hblk' hs ↦ by
      cases heq
      have : blk' = blk := Option.some.inj (hblk'.symm.trans hblk)
      subst this
      rw [hspan] at hs
      cases hs
    ops_le := hg.ops_le
    blocks_le := hg.blocks_le }

/-- The graph with an operation appended to block `b`. Only a terminator has successors, so that
one equation serves both kinds of operations. -/
def appended (g : Graph) (b : BlockIndex) (op : Operation) : Graph :=
  { g with
    ops := g.ops.push op
    owners := g.owners.push b
    blocks := g.blocks.modify b (·.extend g.opCount)
    edges := g.edges ++ (op.successors.map (Edge.mk b)).toArray
    bound := if op.isTerminator then none else some b }

private theorem addEdge_eq_ok {g g' : Graph} {b t : BlockIndex} (h : addEdge b g t = .ok g') :
    t < g.blockCount ∧ g' = { g with edges := g.edges.push ⟨b, t⟩ } := by
  rw [addEdge] at h
  obtain ⟨blk, hblk, h⟩ := exists_of_bind_ok h
  cases h
  exact ⟨lt_blockCount (block_eq_ok.mp hblk), rfl⟩

private theorem foldlM_addEdge_eq_ok {b : BlockIndex} : ∀ {ts : List BlockIndex} {g g' : Graph},
    ts.foldlM (addEdge b) g = .ok g' →
    (∀ t ∈ ts, t < g.blockCount) ∧
      g' = { g with edges := g.edges ++ (ts.map (Edge.mk b)).toArray } := by
  intro ts
  induction ts with
  | nil =>
    intro g g' h
    cases h
    exact ⟨by simp, by simp⟩
  | cons t ts ih =>
    intro g g' h
    rw [List.foldlM_cons] at h
    obtain ⟨g₁, he, h⟩ := exists_of_bind_ok h
    obtain ⟨ht, rfl⟩ := addEdge_eq_ok he
    obtain ⟨hts, rfl⟩ := ih h
    exact ⟨List.forall_mem_cons.mpr ⟨ht, hts⟩, by simp⟩

theorem addOperation_eq_ok {g g' : Graph} {op : Operation} (h : g.addOperation op = .ok g') :
    ∃ b, g.bound = some b ∧ g.opCount < noHandle ∧ (∀ t ∈ op.successors, t < g.blockCount) ∧
      g' = g.appended b op := by
  rw [addOperation] at h
  cases hbound : g.bound with
  | none =>
    rw [hbound] at h
    cases h
  | some b =>
    rw [hbound] at h
    change (if noHandle ≤ g.opCount then _ else _) = _ at h
    split at h
    · cases h
    · rename_i hlt
      refine ⟨b, rfl, by omega, ?_⟩
      cases hend : op.isTerminator with
      | false =>
        rw [hend] at h
        cases h
        have hnil := Operation.successors_eq_nil hend
        exact ⟨by simp [hnil], by simp [appended, hnil, hend]⟩
      | true =>
        rw [hend] at h
        obtain ⟨hts, rfl⟩ := foldlM_addEdge_eq_ok h
        refine ⟨fun t ht ↦ ?_, by simp [appended, hend]⟩
        have := hts t ht
        rwa [blockCount, Array.size_modify] at this

section Appended

variable {g : Graph} {b : BlockIndex} {op : Operation}

theorem appended_blockCount : (g.appended b op).blockCount = g.blockCount := by
  rw [blockCount, appended, Array.size_modify, blockCount]

theorem appended_opCount : (g.appended b op).opCount = g.opCount + 1 := by
  rw [opCount, appended, Array.size_push, opCount]

theorem appended_op_of_lt {i : OpIndex} (h : i < g.opCount) :
    (g.appended b op).ops[i]? = g.ops[i]? := by
  rw [appended, Array.getElem?_push_lt h, Array.getElem?_eq_getElem h]

theorem appended_op_self : (g.appended b op).ops[g.opCount]? = some op := by
  rw [appended, opCount, Array.getElem?_push_size]

/-- An operation is the new one or was there before. -/
theorem appended_op_cases {i : OpIndex} {op' : Operation}
    (h : (g.appended b op).ops[i]? = some op') :
    i = g.opCount ∧ op' = op ∨ i < g.opCount ∧ g.ops[i]? = some op' := by
  have hi := lt_opCount h
  rw [appended_opCount] at hi
  rcases Nat.lt_succ_iff_lt_or_eq.mp hi with hlt | rfl
  · exact Or.inr ⟨hlt, by rwa [appended_op_of_lt hlt] at h⟩
  · rw [appended_op_self] at h
    exact Or.inl ⟨rfl, (Option.some.inj h).symm⟩

theorem appended_block_of_ne {c : BlockIndex} (h : c ≠ b) :
    (g.appended b op).blocks[c]? = g.blocks[c]? := by
  rw [appended, Array.getElem?_modify, if_neg (Ne.symm h)]

theorem appended_block_self {blk : Block} (h : g.blocks[b]? = some blk) :
    (g.appended b op).blocks[b]? = some (blk.extend g.opCount) := by
  rw [appended, Array.getElem?_modify, if_pos rfl, h]
  rfl

theorem appended_span_of_ne {c : BlockIndex} (h : c ≠ b) :
    (g.appended b op).span c = g.span c := by
  rw [span, span, appended_block_of_ne h]

theorem appended_terminator_of_ne {c : BlockIndex} (h : c ≠ b) :
    (g.appended b op).terminator? c = g.terminator? c := by
  rw [terminator?, appended_span_of_ne h, terminator?]

/-- The block stays bound until its terminator comes. -/
theorem appended_bound_eq_some {c : BlockIndex} :
    (g.appended b op).bound = some c ↔ op.isTerminator = false ∧ c = b := by
  rw [appended]
  cases op.isTerminator <;> simp [eq_comm]

private theorem appended_count_edge (p t : BlockIndex) : (g.appended b op).edges.toList.count ⟨p, t⟩
    = g.edges.toList.count ⟨p, t⟩ + if p = b then op.successors.count t else 0 := by
  rw [appended, Array.toList_append, List.toList_toArray, List.count_append]
  congr 1
  split
  · rename_i hp
    rw [hp]
    exact List.count_map_of_injective _ _ (fun x y hxy ↦ (Edge.mk.inj hxy).2) t
  · rename_i hp
    rw [List.count_eq_zero]
    simp [Ne.symm hp]

theorem appended_predecessors_of_notMem {c : BlockIndex} (h : c ∉ op.successors) :
    (g.appended b op).predecessors c = g.predecessors c := by
  have hnone : (op.successors.map (Edge.mk b)).filter (·.target == c) = [] := by
    rw [List.filter_eq_nil_iff]
    intro e he
    obtain ⟨t, ht, rfl⟩ := List.mem_map.mp he
    simpa using fun heq : t = c ↦ h (heq ▸ ht)
  rw [predecessors, appended, Array.toList_append, List.filter_append, List.toList_toArray, hnone,
    List.append_nil, predecessors]

theorem appended_successors_of_ne {c : BlockIndex} (hg : g.Sound) (h : c ≠ b) :
    (g.appended b op).successors c = g.successors c := by
  rw [successors, successors, appended_terminator_of_ne h]
  cases hi : g.terminator? c with
  | none => rfl
  | some i =>
    rw [Option.bind_some, Option.bind_some,
      appended_op_of_lt (hg.lt_of_mem_span (Span.last?_mem hi))]

variable (op) (hg : g.Sound) (hb : g.bound = some b)

include hg hb

/-- The span of the bound block grows at its end. -/
theorem appended_span_self :
    ∃ first, (g.appended b op).span b = ⟨first, g.opCount + 1⟩ ∧ first ≤ g.opCount ∧
      (Span.mk first g.opCount).toList = (g.span b).toList := by
  obtain ⟨blk, hblk⟩ := exists_block (hg.bound_lt hb)
  rw [span_of_block (appended_block_self hblk), span_of_block hblk, Block.span, Block.extend,
    Block.span]
  cases hs : blk.span? with
  | none => exact ⟨g.opCount, rfl, Nat.le_refl _, by simp [Span.toList, Span.length, Span.empty]⟩
  | some s =>
    have hpos := hg.span_pos hblk hs
    have hstop := hg.bound_stop hb hblk hs
    exact ⟨s.first, rfl, by lia, by rw [← hstop]; rfl⟩

private theorem appended_span?_self {blk : Block} {s : Span}
    (hblk : (g.appended b op).blocks[b]? = some blk) (hs : blk.span? = some s) :
    s.first < s.stop ∧ s.stop = (g.appended b op).opCount := by
  obtain ⟨first, hspan, hle, -⟩ := appended_span_self op hg hb
  rw [span_of_block hblk, Block.span, hs] at hspan
  cases (hspan : s = ⟨first, g.opCount + 1⟩)
  exact ⟨Nat.lt_succ_of_le hle, appended_opCount.symm⟩

theorem appended_span_toList_self :
    ((g.appended b op).span b).toList = (g.span b).toList ++ [g.opCount] := by
  obtain ⟨first, hspan, hle, hold⟩ := appended_span_self op hg hb
  rw [hspan, Span.toList_push hle, hold]

theorem mem_appended_span_iff {c : BlockIndex} {i : OpIndex} :
    i ∈ ((g.appended b op).span c).toList ↔
      i ∈ (g.span c).toList ∨ c = b ∧ i = g.opCount := by
  by_cases hc : c = b
  · rw [hc, appended_span_toList_self op hg hb, List.mem_append, List.mem_singleton]
    simp
  · simp [appended_span_of_ne hc, hc]

theorem appended_terminator_self : (g.appended b op).terminator? b = some g.opCount := by
  obtain ⟨first, hspan, hle, hold⟩ := appended_span_self op hg hb
  rw [terminator?, hspan]
  exact Span.last?_eq_some.mpr ⟨by simp only; lia, rfl⟩

theorem appended_successors_self : (g.appended b op).successors b = op.successors :=
  successors_of_terminator (appended_terminator_self op hg hb) appended_op_self

omit op in
/-- Before its terminator comes, the bound block has no successors. -/
theorem successors_of_bound : g.successors b = [] := by
  by_contra hne
  obtain ⟨t, ht⟩ := List.exists_mem_of_ne_nil _ hne
  obtain ⟨i, op', hi, hop, hmem⟩ := exists_op_of_mem_successors ht
  exact (hg.ends (Span.last?_mem hi) hop (Operation.isTerminator_of_mem_successors hmem)).2 hb

private theorem mem_appended_span_iff_owner {c : BlockIndex} {i : OpIndex} :
    i ∈ ((g.appended b op).span c).toList ↔ (g.appended b op).owners[i]? = some c := by
  have hown : (g.appended b op).owners[i]?
      = if i = g.opCount then some b else g.owners[i]? := by
    rw [appended, Array.getElem?_push, hg.owners_size, opCount]
  rw [mem_appended_span_iff op hg hb, hg.mem_span_iff, hown]
  split
  · rename_i hi
    have hnone : g.owners[i]? = none := by
      rw [Array.getElem?_eq_none_iff, hg.owners_size, hi]
      exact Nat.le_refl _
    rw [hnone]
    simp [hi, eq_comm]
  · rename_i hi
    simp [hi]

private theorem appended_ends {c : BlockIndex} {i : OpIndex} {o : Operation}
    (hi : i ∈ ((g.appended b op).span c).toList) (hop : (g.appended b op).ops[i]? = some o)
    (hend : o.isTerminator = true) :
    (g.appended b op).terminator? c = some i ∧ (g.appended b op).bound ≠ some c := by
  rcases (mem_appended_span_iff op hg hb).mp hi with hi | ⟨rfl, rfl⟩
  · rw [appended_op_of_lt (hg.lt_of_mem_span hi)] at hop
    obtain ⟨hterm, hnb⟩ := hg.ends hi hop hend
    have hc : c ≠ b := fun hc ↦ hnb (hc ▸ hb)
    rw [appended_terminator_of_ne hc]
    exact ⟨hterm, fun hbound ↦ hc (appended_bound_eq_some.mp hbound).2⟩
  · cases appended_op_self.symm.trans hop
    refine ⟨appended_terminator_self op hg hb, fun hbound ↦ ?_⟩
    rw [(appended_bound_eq_some.mp hbound).1] at hend
    cases hend

private theorem appended_closed {c : BlockIndex} {i : OpIndex} {o : Operation}
    (hi : (g.appended b op).terminator? c = some i) (hnb : (g.appended b op).bound ≠ some c)
    (hop : (g.appended b op).ops[i]? = some o) : o.isTerminator = true := by
  by_cases hc : c = b
  · subst hc
    cases (appended_terminator_self op hg hb).symm.trans hi
    cases appended_op_self.symm.trans hop
    by_contra hend
    exact hnb (appended_bound_eq_some.mpr ⟨Bool.not_eq_true _ ▸ hend, rfl⟩)
  · rw [appended_terminator_of_ne hc] at hi
    rw [appended_op_of_lt (hg.lt_of_mem_span (Span.last?_mem hi))] at hop
    refine hg.closed hi ?_ hop
    rw [hb]
    exact fun h ↦ hc (Option.some.inj h).symm

end Appended

theorem Sound.addOperation {g g' : Graph} {op : Operation} (hg : g.Sound)
    (h : g.addOperation op = .ok g') : g'.Sound := by
  obtain ⟨b, hb, hlt, hts, rfl⟩ := addOperation_eq_ok h
  exact {
    owners_size := by rw [appended, Array.size_push, Array.size_push, hg.owners_size]
    mem_span_iff := fun i c ↦ mem_appended_span_iff_owner op hg hb
    span_pos := by
      intro c blk s hblk hs
      by_cases hc : c = b
      · exact (appended_span?_self op hg hb (hc ▸ hblk) hs).1
      · rw [appended_block_of_ne hc] at hblk
        exact hg.span_pos hblk hs
    ends := fun hi hop hend ↦ appended_ends op hg hb hi hop hend
    closed := fun hi hnb hop ↦ appended_closed op hg hb hi hnb hop
    edge_count := by
      intro p t
      rw [appended_count_edge, hg.edge_count]
      split
      · rename_i hp
        rw [hp, successors_of_bound hg hb, appended_successors_self op hg hb, List.count_nil,
          Nat.zero_add]
      · rename_i hp
        rw [appended_successors_of_ne hg hp, Nat.add_zero]
    target_lt := by
      intro c t ht
      rw [appended_blockCount]
      by_cases hc : c = b
      · rw [hc, appended_successors_self op hg hb] at ht
        exact hts t ht
      · rw [appended_successors_of_ne hg hc] at ht
        exact hg.target_lt ht
    bound_lt := by
      intro c hc
      rw [appended_blockCount, (appended_bound_eq_some.mp hc).2]
      exact hg.bound_lt hb
    bound_stop := by
      intro c blk s hc hblk hs
      rw [(appended_bound_eq_some.mp hc).2] at hblk
      exact (appended_span?_self op hg hb hblk hs).2
    ops_le := by
      rw [appended_opCount]
      exact hlt
    blocks_le := by
      rw [appended_blockCount]
      exact hg.blocks_le }

/-! ## Adjusting

Kinds, deferred flags and inputs can be set at any time. None of them takes part in the shape of a
graph, so that one statement covers all adjustments. -/

/-- Two graphs that differ in names, kinds, flags and inputs at most. -/
structure Alike (g g' : Graph) : Prop where
  actions : ∀ i : OpIndex, g'.ops[i]?.map Operation.action = g.ops[i]?.map Operation.action
  owners : g'.owners = g.owners
  spans : ∀ b : BlockIndex, g'.blocks[b]?.map Block.span? = g.blocks[b]?.map Block.span?
  edges : g'.edges = g.edges
  bound : g'.bound = g.bound

namespace Alike

variable {g g' : Graph} (h : Alike g g')

include h

theorem opCount_eq : g'.opCount = g.opCount := by
  have hnone : ∀ i : Nat, g'.opCount ≤ i ↔ g.opCount ≤ i := by
    intro i
    have := congrArg Option.isNone (h.actions i)
    rw [Option.isNone_map, Option.isNone_map, Bool.eq_iff_iff, Option.isNone_iff_eq_none,
      Option.isNone_iff_eq_none, Array.getElem?_eq_none_iff, Array.getElem?_eq_none_iff] at this
    exact this
  have h₁ := (hnone g.opCount).mpr (Nat.le_refl _)
  have h₂ := (hnone g'.opCount).mp (Nat.le_refl _)
  omega

theorem blockCount_eq : g'.blockCount = g.blockCount := by
  have hnone : ∀ b : Nat, g'.blockCount ≤ b ↔ g.blockCount ≤ b := by
    intro b
    have := congrArg Option.isNone (h.spans b)
    rw [Option.isNone_map, Option.isNone_map, Bool.eq_iff_iff, Option.isNone_iff_eq_none,
      Option.isNone_iff_eq_none, Array.getElem?_eq_none_iff, Array.getElem?_eq_none_iff] at this
    exact this
  have h₁ := (hnone g.blockCount).mpr (Nat.le_refl _)
  have h₂ := (hnone g'.blockCount).mp (Nat.le_refl _)
  omega

theorem span_eq (b : BlockIndex) : g'.span b = g.span b := by
  have := h.spans b
  rw [span, span]
  cases hb' : g'.blocks[b]? with
  | none =>
    cases hb : g.blocks[b]? with
    | none => rfl
    | some blk => simp [hb, hb'] at this
  | some blk' =>
    cases hb : g.blocks[b]? with
    | none => simp [hb, hb'] at this
    | some blk =>
      have hs : blk'.span? = blk.span? := by simpa [hb, hb'] using this
      simp only [Block.span, hs]

theorem terminator_eq (b : BlockIndex) : g'.terminator? b = g.terminator? b := by
  rw [terminator?, terminator?, h.span_eq]

theorem exists_op {i : OpIndex} {op' : Operation} (hop : g'.ops[i]? = some op') :
    ∃ op, g.ops[i]? = some op ∧ op.action = op'.action := by
  have := h.actions i
  rw [hop, Option.map_some] at this
  exact Option.map_eq_some_iff.mp this.symm

theorem successors_eq (b : BlockIndex) : g'.successors b = g.successors b := by
  rw [successors, successors, h.terminator_eq]
  cases g.terminator? b with
  | none => rfl
  | some i =>
    rw [Option.bind_some, Option.bind_some]
    cases hop' : g'.ops[i]? with
    | none =>
      have := h.actions i
      rw [hop', Option.map_none, eq_comm, Option.map_eq_none_iff] at this
      rw [this]
    | some op' =>
      obtain ⟨op, hop, hact⟩ := h.exists_op hop'
      simp only [hop, Operation.successors, hact]

theorem predecessors_eq (b : BlockIndex) : g'.predecessors b = g.predecessors b := by
  rw [predecessors, predecessors, h.edges]

theorem sound (hg : g.Sound) : g'.Sound where
  owners_size := by
    have := h.opCount_eq
    rw [opCount, opCount] at this
    rw [h.owners, this, hg.owners_size]
  mem_span_iff i b := by rw [h.span_eq, h.owners, hg.mem_span_iff]
  span_pos {b blk' s} hblk' hs := by
    have := h.spans b
    rw [hblk', Option.map_some, eq_comm, Option.map_eq_some_iff] at this
    obtain ⟨blk, hblk, heq⟩ := this
    exact hg.span_pos hblk (heq.trans hs)
  ends {b i op'} hi hop' hend := by
    obtain ⟨op, hop, hact⟩ := h.exists_op hop'
    rw [h.span_eq] at hi
    rw [h.terminator_eq, h.bound]
    refine hg.ends hi hop ?_
    rwa [Operation.isTerminator, hact]
  closed {b i op'} hi hb hop' := by
    obtain ⟨op, hop, hact⟩ := h.exists_op hop'
    rw [h.terminator_eq] at hi
    rw [h.bound] at hb
    rw [Operation.isTerminator, ← hact]
    exact hg.closed hi hb hop
  edge_count p b := by rw [h.edges, h.successors_eq, hg.edge_count]
  target_lt ht := by
    rw [h.successors_eq] at ht
    rw [h.blockCount_eq]
    exact hg.target_lt ht
  bound_lt hb := by
    rw [h.bound] at hb
    rw [h.blockCount_eq]
    exact hg.bound_lt hb
  bound_stop {b blk' s} hb hblk' hs := by
    have := h.spans b
    rw [hblk', Option.map_some, eq_comm, Option.map_eq_some_iff] at this
    obtain ⟨blk, hblk, heq⟩ := this
    rw [h.bound] at hb
    rw [h.opCount_eq]
    exact hg.bound_stop hb hblk (heq.trans hs)
  ops_le := by rw [h.opCount_eq]; exact hg.ops_le
  blocks_le := by rw [h.blockCount_eq]; exact hg.blocks_le

end Alike

theorem Alike.refl (g : Graph) : Alike g g := ⟨fun _ ↦ rfl, rfl, fun _ ↦ rfl, rfl, rfl⟩

theorem Alike.trans {g₁ g₂ g₃ : Graph} (h : Alike g₁ g₂) (h' : Alike g₂ g₃) : Alike g₁ g₃ :=
  ⟨fun i ↦ (h'.actions i).trans (h.actions i), h'.owners.trans h.owners,
    fun b ↦ (h'.spans b).trans (h.spans b), h'.edges.trans h.edges, h'.bound.trans h.bound⟩

/-- Changing blocks in a way that keeps their spans makes no other shape. -/
theorem alike_modify_block (g : Graph) (b : BlockIndex) {f : Block → Block}
    (hf : ∀ blk, (f blk).span? = blk.span?) : Alike g { g with blocks := g.blocks.modify b f } where
  actions _ := rfl
  owners := rfl
  spans c := by
    rw [Array.getElem?_modify]
    split
    · rw [Option.map_map]
      exact congrArg (Option.map · _) (funext fun blk ↦ hf blk)
    · rfl
  edges := rfl
  bound := rfl

theorem setDeferred_alike {g g' : Graph} {b : BlockIndex} {deferred : Bool}
    (h : g.setDeferred b deferred = .ok g') : Alike g g' := by
  rw [setDeferred] at h
  obtain ⟨blk, -, h⟩ := exists_of_bind_ok h
  cases h
  exact alike_modify_block g b fun _ ↦ rfl

theorem setKind_alike {g g' : Graph} {b : BlockIndex} {kind : BlockKind}
    (h : g.setKind b kind = .ok g') : Alike g g' := by
  rw [setKind] at h
  obtain ⟨blk, -, h⟩ := exists_of_bind_ok h
  cases h
  exact alike_modify_block g b fun _ ↦ rfl

theorem setInputs_eq_ok {g g' : Graph} {i : OpIndex} {inputs : List OpIndex}
    (h : g.setInputs i inputs = .ok g') :
    g' = { g with ops := g.ops.modify i ({ · with inputs }) } := by
  rw [setInputs] at h
  obtain ⟨op, -, h⟩ := exists_of_bind_ok h
  cases h
  rfl

section SetInputs

variable {g g' : Graph} {i j : OpIndex} {inputs : List OpIndex}
  (h : g.setInputs i inputs = .ok g')

include h

theorem setInputs_op_self : g'.ops[i]? = g.ops[i]?.map ({ · with inputs }) := by
  rw [setInputs_eq_ok h, Array.getElem?_modify, if_pos rfl]

theorem setInputs_op_of_ne (hne : j ≠ i) : g'.ops[j]? = g.ops[j]? := by
  rw [setInputs_eq_ok h, Array.getElem?_modify, if_neg (Ne.symm hne)]

/-- An operation has its inputs set, or is what it was. -/
theorem setInputs_op_cases {op : Operation} (hop : g'.ops[j]? = some op) :
    j = i ∧ (∃ op₀, g.ops[i]? = some op₀ ∧ op = { op₀ with inputs }) ∨
      j ≠ i ∧ g.ops[j]? = some op := by
  by_cases hj : j = i
  · rw [hj, setInputs_op_self h] at hop
    obtain ⟨op₀, hop₀, heq⟩ := Option.map_eq_some_iff.mp hop
    exact Or.inl ⟨hj, op₀, hop₀, heq.symm⟩
  · rw [setInputs_op_of_ne h hj] at hop
    exact Or.inr ⟨hj, hop⟩

theorem setInputs_alike : Alike g g' := by
  rw [setInputs_eq_ok h]
  refine ⟨fun j ↦ ?_, rfl, fun _ ↦ rfl, rfl, rfl⟩
  rw [Array.getElem?_modify]
  split
  · rw [Option.map_map]
    rfl
  · rfl

end SetInputs

end Graph

end Flowgraph
