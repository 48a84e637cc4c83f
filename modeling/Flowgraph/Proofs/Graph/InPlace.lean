import Flowgraph.Proofs.Graph.Chains
import Flowgraph.Proofs.Graph.Reordering
import Flowgraph.Proofs.Stepping

/-!
# Renumbering in place

`Graph.reorder` makes a new graph. A graph can also be renumbered where it stands: the new tables of
the operations and the blocks are filled on the side, the edges are overwritten one by one, and the
new tables replace the old ones at the end. Between the first edge and the last table the graph is
neither the old one nor the new one, so that it matters where such a renumbering can break off.

This module proves that it breaks off before the first edge or not at all. What remains to be done
by then cannot fail, since the edges of a sound graph lead from blocks of the graph to blocks of the
graph. So the graph ends up as `Graph.reorder` makes it, or it is left exactly as it was.
-/

namespace Flowgraph

open Flowgraph.Graph (lookup newBlock positions)

/-! ## The new tables

The tables that are filled on the side, block by block in the new order: the new numbers of the
operations, the operations themselves, their owners, and the blocks with new spans. -/

/-- The new tables of the operations and the blocks while they are filled, block by block. The
operations are not renamed yet. -/
structure Staged where
  /-- The new number of each operation that was staged. -/
  values : Array OpIndex
  ops : Array Operation
  owners : Array BlockIndex
  blocks : Array Block

namespace Staged

/-- Nothing is staged yet. -/
def start (n : Nat) : Staged := ⟨Array.replicate n 0, #[], #[], #[]⟩

/-- Stages an operation of the block at position `pos`. -/
def addOp (g : Graph) (pos : Nat) (s : Staged) (i : OpIndex) : Except Breach Staged := do
  let op ← lookup g.ops i
  return { s with
    values := s.values.setIfInBounds i s.ops.size
    ops := s.ops.push op
    owners := s.owners.push pos }

/-- Stages a block with its operations. The range of an empty block stays as it is. -/
def addBlock (g : Graph) (s : Staged) (entry : BlockIndex × Nat) : Except Breach Staged := do
  let blk ← lookup g.blocks entry.1
  let s' ← blk.span.toList.foldlM (addOp g entry.2) s
  let blk' := if blk.span.length = 0 then blk
    else { blk with span? := some ⟨s.ops.size, s'.ops.size⟩ }
  return { s' with blocks := s'.blocks.push blk' }

end Staged

/-! ## The steps -/

/-- A step of renumbering in place. The graph outlives a breach. -/
abbrev InPlace := ExceptT Breach (StateM Graph)

namespace InPlace

/-- The step that succeeds or fails as a given result does. -/
def ofExcept {α : Type} : Except Breach α → InPlace α
  | .ok a => pure a
  | .error e => throw e

/-- Renames the two ends of edge `e`. -/
def renameEdge (t : Array (Option Nat)) (e : Nat) : InPlace Unit := do
  let edge ← ofExcept (lookup (← get).edges e)
  let source ← ofExcept (newBlock t edge.source)
  let target ← ofExcept (newBlock t edge.target)
  modify fun g ↦ { g with edges := g.edges.setIfInBounds e ⟨source, target⟩ }

/-- Renumbers the blocks of the graph so that block `perm[i]` becomes block `i`. -/
def reorder (perm : List BlockIndex) : InPlace Unit := do
  let g ← get
  if g.bound.isSome then throw .reorderWhileBound
  if perm.length ≠ g.blockCount then throw (.permutationSize perm.length g.blockCount)
  let t ← ofExcept (positions g.blockCount perm)
  let staged ← ofExcept (perm.zipIdx.foldlM (Staged.addBlock g) (.start g.opCount))
  let ops ← ofExcept (staged.ops.toList.mapM (·.rename (newBlock t) (lookup staged.values)))
  (List.range g.edges.size).forM (renameEdge t)
  modify fun g' ↦ { g' with ops := ops.toArray, owners := staged.owners, blocks := staged.blocks }

end InPlace

/-! ## What is staged

The tables that are staged are those that `Graph.reorder` makes, up to the renaming of the
operations, and staging cannot fail, since the spans of a sound graph stay inside its tables. -/

private theorem mapM_congr {ε α β : Type} {f f' : α → Except ε β} : ∀ {l : List α},
    (∀ a ∈ l, f a = f' a) → l.mapM f = l.mapM f'
  | [], _ => rfl
  | a :: l, h => by
    rw [List.forall_mem_cons] at h
    rw [List.mapM_cons, List.mapM_cons, h.1, mapM_congr h.2]

namespace Graph

private theorem renumbering_concat (n : Nat) (l : List OpIndex) (i : OpIndex) :
    renumbering n (l ++ [i]) = (renumbering n l).setIfInBounds i l.length := by
  rw [renumbering, List.zipIdx_append, List.foldl_append, Nat.zero_add]
  rfl

private theorem ownersOf_concat (g : Graph) (l : List BlockIndex) (b : BlockIndex) :
    g.ownersOf 0 (l ++ [b]) = g.ownersOf 0 l ++ List.replicate (g.span b).length l.length := by
  rw [ownersOf, List.zipIdx_append, List.flatMap_append, Nat.zero_add]
  simp [ownersOf]

/-- What is staged after the operations and blocks that are listed. -/
def staged (g : Graph) (ops : List OpIndex) (owners : List BlockIndex) (blocks : List Block) :
    Staged where
  values := renumbering g.opCount ops
  ops := (ops.map fun i ↦ g.ops[i]?.getD .dead).toArray
  owners := owners.toArray
  blocks := blocks.toArray

variable {g : Graph}

private theorem staged_addOps {pos : Nat} {blocks : List Block} : ∀ {l ops : List OpIndex}
    {owners : List BlockIndex}, (∀ i ∈ l, i < g.opCount) →
      l.foldlM (Staged.addOp g pos) (g.staged ops owners blocks)
        = .ok (g.staged (ops ++ l) (owners ++ List.replicate l.length pos) blocks)
  | [], ops, owners, _ => by simp; rfl
  | i :: l, ops, owners, hl => by
    rw [List.forall_mem_cons] at hl
    obtain ⟨op, hop⟩ := exists_op hl.1
    have hstep : Staged.addOp g pos (g.staged ops owners blocks) i
        = .ok (g.staged (ops ++ [i]) (owners ++ [pos]) blocks) := by
      rw [Staged.addOp, lookup_eq_ok.mpr hop, ok_bind]
      simp [staged, renumbering_concat, hop, pure, Except.pure]
    rw [List.foldlM_cons, hstep, ok_bind, staged_addOps hl.2, List.append_assoc, List.append_assoc]
    rfl

/-- What is staged after the blocks of a list. -/
def stagedBlocks (g : Graph) (l : List BlockIndex) : Staged :=
  g.staged (g.opsOf l) (g.ownersOf 0 l) (g.place 0 l)

private theorem stagedBlocks_concat (hg : g.Sound) {l : List BlockIndex} {b : BlockIndex}
    (hl : ∀ c ∈ l, c < g.blockCount) (hb : b < g.blockCount) :
    Staged.addBlock g (g.stagedBlocks l) (b, l.length) = .ok (g.stagedBlocks (l ++ [b])) := by
  obtain ⟨blk, hblk⟩ := exists_block hb
  have hspan := span_of_block hblk
  have hops : g.opsOf (l ++ [b]) = g.opsOf l ++ blk.span.toList := by simp [opsOf, hspan]
  rw [Staged.addBlock, lookup_eq_ok.mpr hblk, ok_bind, stagedBlocks,
    staged_addOps fun i hi ↦ hg.lt_of_mem_span (hspan ▸ hi), ok_bind, stagedBlocks, hops,
    ownersOf_concat, hspan, (place_append g [b] l 0 hl).1]
  simp [staged, place, hblk, pure, Except.pure]

private theorem stagedBlocks_append (hg : g.Sound) : ∀ {l : List BlockIndex}
    (pre : List BlockIndex), (∀ c ∈ pre ++ l, c < g.blockCount) →
      (l.zipIdx pre.length).foldlM (Staged.addBlock g) (g.stagedBlocks pre)
        = .ok (g.stagedBlocks (pre ++ l))
  | [], pre, _ => by
    rw [List.append_nil]
    rfl
  | b :: l, pre, hlt => by
    have hpre : ∀ c ∈ pre, c < g.blockCount := fun c hc ↦ hlt c (List.mem_append_left _ hc)
    have hb := hlt b (List.mem_append_right _ List.mem_cons_self)
    have ih := stagedBlocks_append hg (pre ++ [b]) (List.append_cons pre b l ▸ hlt)
    rw [List.length_append, List.length_singleton, ← List.append_cons] at ih
    rw [List.zipIdx_cons, List.foldlM_cons, stagedBlocks_concat hg hpre hb, ok_bind, ih]

/-- Staging goes through and fills the tables that renumbering makes, up to the renaming of the
operations. -/
private theorem foldlM_stagedBlock (hg : g.Sound) {perm : List BlockIndex}
    (hlt : ∀ b ∈ perm, b < g.blockCount) :
    perm.zipIdx.foldlM (Staged.addBlock g) (.start g.opCount) = .ok (g.stagedBlocks perm) :=
  stagedBlocks_append hg [] hlt

private theorem mapM_staged_ops (hg : g.Sound) {perm : List BlockIndex}
    (hperm : perm.Perm (List.range g.blockCount)) (f : Operation → Except Breach Operation) :
    (g.stagedBlocks perm).ops.toList.mapM f
      = (g.opsOf perm).mapM fun i ↦ lookup g.ops i >>= f := by
  rw [stagedBlocks, staged, List.mapM_map]
  refine mapM_congr fun i hi ↦ ?_
  obtain ⟨op, hop⟩ := exists_op ((mem_opsOf hg hperm).mp hi)
  rw [Function.comp_apply, lookup_eq_ok.mpr hop, hop]
  rfl

end Graph

/-! ## The edges

All ends of all edges have new names, so the walk through the edges goes through to the end. -/

namespace InPlace

theorem run_ofExcept_ok {α β : Type} {x : Except Breach α} {a : α} (h : x = .ok a)
    (f : α → InPlace β) (g : Graph) : (ofExcept x >>= f).run g = (f a).run g := by
  rw [h]
  rfl

private theorem run_ofExcept_error {α β : Type} {x : Except Breach α} {e : Breach}
    (h : x = .error e) (f : α → InPlace β) (g : Graph) :
    (ofExcept x >>= f).run g = (.error e, g) := by
  rw [h]
  rfl

section Edges

variable {g : Graph} {t : Array (Option Nat)} {β : BlockIndex → BlockIndex}

private theorem yields_renameEdge {pre suf : List Edge} {edge : Edge}
    (hsource : newBlock t edge.source = .ok (β edge.source))
    (htarget : newBlock t edge.target = .ok (β edge.target)) :
    Yields (renameEdge t pre.length) { g with edges := (pre ++ edge :: suf).toArray } ()
      { g with edges := (pre ++ ⟨β edge.source, β edge.target⟩ :: suf).toArray } := by
  have hlookup : lookup (pre ++ edge :: suf).toArray pre.length = .ok edge := by
    rw [Graph.lookup_eq_ok]
    simp
  rw [Yields, renameEdge]
  refine (run_ofExcept_ok hlookup _ _).trans ?_
  refine (run_ofExcept_ok hsource _ _).trans ?_
  refine (run_ofExcept_ok htarget _ _).trans ?_
  change (Except.ok (), _) = (Except.ok (), _)
  simp

private theorem yields_renameEdges : ∀ {l : List Edge} (pre : List Edge),
    (∀ e ∈ l, newBlock t e.source = .ok (β e.source) ∧ newBlock t e.target = .ok (β e.target)) →
      Yields ((List.range' pre.length l.length).forM (renameEdge t))
        { g with edges := (pre ++ l).toArray } ()
        { g with edges := (pre ++ l.map fun e ↦ (⟨β e.source, β e.target⟩ : Edge)).toArray }
  | [], pre, _ => yields_forM_nil.mpr rfl
  | edge :: l, pre, hnames => by
    rw [List.forall_mem_cons] at hnames
    rw [List.length_cons, List.range'_succ]
    refine yields_forM_cons.mpr ⟨_, yields_renameEdge hnames.1.1 hnames.1.2, ?_⟩
    have ih := yields_renameEdges (pre ++ [⟨β edge.source, β edge.target⟩]) hnames.2
    rwa [List.length_append, List.length_singleton, ← List.append_cons, ← List.append_cons] at ih

private theorem yields_allEdges (β : BlockIndex → BlockIndex) (hnames : ∀ e ∈ g.edges.toList,
    newBlock t e.source = .ok (β e.source) ∧ newBlock t e.target = .ok (β e.target)) :
    Yields ((List.range g.edges.size).forM (renameEdge t)) g ()
      { g with edges := g.edges.map fun e ↦ ⟨β e.source, β e.target⟩ } := by
  have h := yields_renameEdges (g := g) [] hnames
  rwa [List.nil_append, List.nil_append, Array.toArray_toList, ← Array.toList_map,
    Array.toArray_toList, List.length_nil, ← List.range_eq_range', Array.length_toList] at h

end Edges

/-! ## The outcome

`Reorders` puts the graph before and after, the permutation and the renaming together. The statement
also covers what is refused: the outcome then is a breach, and the graph is the one from before. -/

section Outcome

variable {g : Graph} {perm : List BlockIndex}

private theorem run_reorder_of_bound (hb : g.bound.isSome) :
    (reorder perm).run g = (.error .reorderWhileBound, g) := by
  rw [reorder]
  change (if g.bound.isSome = true then _ else _ : InPlace Unit).run g = _
  rw [if_pos hb]
  rfl

private theorem run_reorder_of_size (hb : g.bound = none) (hlen : perm.length ≠ g.blockCount) :
    (reorder perm).run g = (.error (.permutationSize perm.length g.blockCount), g) := by
  rw [reorder]
  change (if g.bound.isSome = true then _ else if perm.length ≠ g.blockCount then _ else _ :
    InPlace Unit).run g = _
  rw [if_neg (by simp [hb]), if_pos hlen]
  rfl

private theorem run_reorder_checked (hb : g.bound = none) (hlen : perm.length = g.blockCount) :
    (reorder perm).run g = (do
      let t ← ofExcept (positions g.blockCount perm)
      let staged ← ofExcept (perm.zipIdx.foldlM (Staged.addBlock g) (.start g.opCount))
      let ops ← ofExcept (staged.ops.toList.mapM (·.rename (newBlock t) (lookup staged.values)))
      (List.range g.edges.size).forM (renameEdge t)
      modify fun g' ↦ { g' with
        ops := ops.toArray, owners := staged.owners, blocks := staged.blocks }
      : InPlace Unit).run g := by
  rw [reorder]
  change (if g.bound.isSome = true then _ else if perm.length ≠ g.blockCount then _ else _ :
    InPlace Unit).run g = _
  rw [if_neg (by simp [hb]), if_neg (by simp [hlen])]

/-- Renumbering in place leaves the graph as renumbering makes it or, where it is refused, exactly
as it was. -/
private theorem run_reorder (hg : g.Sound) : (reorder perm).run g =
    match g.reorder perm with
    | .ok g' => (.ok (), g')
    | .error e => (.error e, g) := by
  cases hb : g.bound with
  | some b => rw [run_reorder_of_bound (by rw [hb]; rfl), Graph.reorder_of_bound hb]
  | none =>
    by_cases hlen : perm.length = g.blockCount
    · rw [run_reorder_checked hb hlen, Graph.reorder_eq hb hlen]
      cases ht : positions g.blockCount perm with
      | error e => rfl
      | ok t =>
        have hperm := (Graph.positions_spec hlen ht).1
        have hlt : ∀ b ∈ perm, b < g.blockCount := fun b hb ↦
          List.mem_range.mp (hperm.mem_iff.mp hb)
        refine (run_ofExcept_ok rfl _ _).trans ?_
        refine (run_ofExcept_ok (Graph.foldlM_stagedBlock hg hlt) _ _).trans ?_
        rw [ok_bind, Graph.mapM_staged_ops hg hperm]
        cases hops : (g.opsOf perm).mapM fun i ↦ lookup g.ops i >>=
            (·.rename (newBlock t) (lookup (Graph.renumbering g.opCount (g.opsOf perm)))) with
        | error e => exact run_ofExcept_error hops _ _
        | ok ops =>
          -- from here on nothing can fail
          have hedges := yields_allEdges (g := g) perm.idxOf fun e he ↦
            ⟨Graph.newBlock_of_positions hlen ht (hg.edge_lt he).1,
              Graph.newBlock_of_positions hlen ht (hg.edge_lt he).2⟩
          rw [ok_bind, Graph.mapM_rename_edges hg hlen ht]
          refine (run_ofExcept_ok hops _ _).trans ?_
          exact yields_bind.mpr ⟨_, _, hedges, yields_modify.mpr rfl⟩
    · rw [run_reorder_of_size hb hlen, Graph.reorder_of_size hb hlen]

end Outcome

end InPlace

/-- What a renumbering of a graph by `perm` comes to, whether it goes through or not. -/
structure Graph.Reorders (g : Graph) (perm : List BlockIndex) : Prop where
  /-- It goes through just if no block is bound, every block is listed once and every operation
  takes values of the graph. -/
  exists_iff : (∃ g', g.reorder perm = .ok g') ↔
    g.bound = none ∧ perm.Perm (List.range g.blockCount) ∧ g.ValuesExist
  reorderedBy : ∀ g', g.reorder perm = .ok g' → g.ReorderedBy g' perm
  /-- Where it goes through, the graph can be renumbered in place. -/
  in_place : ∀ g', g.reorder perm = .ok g' → (InPlace.reorder perm).run g = (.ok (), g')
  /-- Where it does not, the breach tells why, and the graph is left as it was. -/
  refused : ∀ e, g.reorder perm = .error e →
    g.Refuses perm e ∧ (InPlace.reorder perm).run g = (.error e, g)
  /-- Renumbering once more by `q` is renumbering by the permutation that takes `i` to
  `perm[q[i]]`. -/
  combined : perm.Perm (List.range g.blockCount) → ∀ q r : List BlockIndex,
    q.Perm (List.range g.blockCount) → (∀ i : Nat, r[i]? = q[i]?.bind (perm[·]?)) →
    (g.reorder perm >>= fun g' ↦ g'.reorder q) = g.reorder r

/-- Every renumbering of a graph that was built gives the same graph under other names, in one step
or in several, or leaves the graph alone. -/
theorem Graph.reorders {g : Graph} (hg : g.Built) (perm : List BlockIndex) : g.Reorders perm where
  exists_iff := exists_reorder_iff hg.sound
  reorderedBy _ h := reorderedBy_of_reorder hg.sound h
  in_place g' h := by rw [InPlace.run_reorder hg.sound, h]
  refused e h := ⟨refuses_of_reorder_error hg.sound h, by rw [InPlace.run_reorder hg.sound, h]⟩
  combined hp _ _ hq hr := reorder_bind_reorder hg.sound hp hq hr

/-- Calls that fill the blocks of a loop out of order, so that a value is used before it gets its
number. -/
def ringCalls : List Call := [
  .addBlock .entry false, .addBlock .plain true, .addBlock .loop false, .bind 2,
  .addOperation ⟨.phi .word32, [2, 4]⟩, .addOperation (.goto 1), .bind 1,
  .addOperation (.pure "step".toUTF8 [0]), .addOperation (.goto 2), .bind 0,
  .addOperation (.pure "start".toUTF8 []), .addOperation (.goto 2)]

/-- A loop that was built out of order. -/
def Graph.sampleRing : Graph :=
  (((Construction.start .empty).calls ringCalls).toOption.map (·.graph)).getD (.empty .empty)

theorem reorders_sampleRing : Graph.sampleRing.Built ∧
    (Graph.sampleRing.reorder [0, 2, 1]).map Graph.violations = .ok [] ∧
    Graph.sampleRing.Reorders [0, 2, 1] := by
  have hbuilt : Graph.sampleRing.Built :=
    ((Construction.agrees_start .empty).calls
      (show (Construction.start .empty).calls ringCalls = _ from rfl)).built
  exact ⟨hbuilt, by decide +kernel, Graph.reorders hbuilt [0, 2, 1]⟩

end Flowgraph
