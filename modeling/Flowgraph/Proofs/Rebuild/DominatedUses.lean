import Flowgraph.Proofs.Order.Loops
import Flowgraph.Proofs.Rebuild.Draft

/-!
# Definitions dominate their uses

Whether a value is defined before its uses depends on the numbers of the blocks, and renumbering
changes them. What a graph has to say for itself is `Graph.DominatedUses`: a definition dominates
its uses. A phi uses each of its inputs at the end of the predecessor that the input belongs to, so
that the phis of a loop may use values of the loop body.

A definition that dominates its uses comes before them in every reverse postorder, since a dominator
reaches what it dominates along edges that go forward.
-/

namespace Flowgraph

namespace Graph

variable {g : Graph}

/-- Every value is there on all ways to its uses: an operation takes it from further up in its own
block or from a block that dominates its own, and a phi takes the value for a predecessor from a
block that dominates the predecessor. -/
structure DominatedUses (g : Graph) : Prop where
  plain : ∀ {i j : OpIndex} {op : Operation} {b d : BlockIndex}, g.ops[i]? = some op →
    op.isPhi = false → g.owners[i]? = some b → j ∈ op.inputs → g.owners[j]? = some d →
    g.Dominates d b ∧ (d = b → j < i)
  phi : ∀ {i j : OpIndex} {op : Operation} {b p d : BlockIndex} {k : Nat}, g.ops[i]? = some op →
    op.isPhi = true → g.owners[i]? = some b → op.inputs[k]? = some j →
    (g.predecessors b)[k]? = some p → g.owners[j]? = some d → g.Dominates d p

section

variable {g' : Graph} {β : BlockIndex → BlockIndex} {ω : OpIndex → OpIndex}
  (h : Renamed g g' β ω) (hg : g.Sound) (hentry : β 0 = 0) (hfit : g.Fit)
  (hord : g'.InReversePostorder)

include h hg hentry hfit hord

/-- A dominator does not come later in a new order. -/
theorem Renamed.lt_or_eq_of_dominates {d b : BlockIndex} (hb : b < g.blockCount)
    (hd : g.Dominates d b) : β d < β b ∨ d = b := by
  have hforward := (h.inReversePostorder_iff hg hentry).mp hord
  have hpath := hd.forward_path hg (hfit.reached b hb)
  clear hd hb
  induction hpath with
  | refl => exact Or.inr rfl
  | @tail x y _ harc ih =>
    have hlt : β x < β y := Nat.lt_of_not_le fun hle ↦ harc.2 ((hforward x y harc.1).mpr hle)
    rcases ih with ih | rfl
    · exact Or.inl (Nat.lt_trans ih hlt)
    · exact Or.inl hlt

/-- No backedge leads to a block that is no loop. -/
theorem Renamed.lt_of_arc_of_not_loop {p b : BlockIndex} {blk : Block}
    (hblk : g.blocks[b]? = some blk) (hloop : blk.isLoop = false) (harc : g.Arc p b) :
    β p < β b := by
  have hforward := (h.inReversePostorder_iff hg hentry).mp hord
  refine Nat.lt_of_not_le fun hle ↦ ?_
  have hmarked := (hfit.loopsMarked hblk).mpr ⟨p, (hforward p b harc).mpr hle⟩
  rw [hloop] at hmarked
  cases hmarked

/-- Values that dominate their uses are defined first in any reverse postorder. -/
theorem Renamed.definedFirst (huses : g.DominatedUses) : g'.DefinedFirst := by
  intro i' hi' op' hop' b' hb' blk' hblk' hphi' j' hj' d' hd'
  obtain ⟨i, op, hop, rfl, rfl⟩ := h.exists_op hop'
  obtain ⟨j, hj, rfl⟩ := List.mem_map.mp hj'
  have hjlt := (hfit.wellFormed.referring hop).value_lt j hj
  obtain ⟨b, hib⟩ := hg.exists_owner (lt_opCount hop)
  obtain ⟨d, hjd⟩ := hg.exists_owner hjlt
  have hb := (hg.mem_span_iff i b).mp hib
  have hd := (hg.mem_span_iff j d).mp hjd
  cases (h.owner hb).symm.trans hb'
  cases (h.owner hd).symm.trans hd'
  have hblt := lt_blockCount_of_mem_span hib
  obtain ⟨blk, hblk⟩ := Graph.exists_block hblt
  obtain ⟨blk'', hblk'', hkind, -, -⟩ := h.block hblk
  cases hblk''.symm.trans hblk'
  rw [Operation.renamed_isPhi] at hphi'
  cases hphi : op.isPhi with
  | false =>
    obtain ⟨hdominates, hlt⟩ := huses.plain hop hphi hb hj hd
    rcases h.lt_or_eq_of_dominates hg hentry hfit hord hblt hdominates with hlt' | rfl
    · exact Or.inl hlt'
    · exact Or.inr ⟨rfl, h.op_lt_op hib hjd (hlt rfl)⟩
  | true =>
    -- the definition dominates a predecessor, which comes before the block
    rw [span_of_block hblk] at hib
    have hlen := (hfit.wellFormed.matched hblk hib hop hphi).2
    obtain ⟨k, hk⟩ := List.getElem?_of_mem hj
    have hklt : k < (g.predecessors b).length := hlen ▸ (List.getElem?_eq_some_iff.mp hk).1
    have hp := List.getElem?_eq_getElem hklt
    generalize (g.predecessors b)[k] = p at hp
    have harc : g.Arc p b := hg.mem_predecessors_iff.mp (List.mem_of_getElem? hp)
    have hplain : blk.isLoop = false := by
      rw [hphi, Bool.true_and, Block.isLoop, hkind, ← Block.isLoop] at hphi'
      exact hphi'
    have hlt := h.lt_of_arc_of_not_loop hg hentry hfit hord hblk hplain harc
    rcases h.lt_or_eq_of_dominates hg hentry hfit hord (hg.arc_lt harc).1
      (huses.phi hop hphi hb hk hp hd) with hlt' | rfl
    · exact Or.inl (Nat.lt_trans hlt' hlt)
    · exact Or.inl hlt

end

variable (hg : g.Sound) (hfit : g.Fit) (hord : g.InReversePostorder)

include hg hfit hord

/-- A dominator comes before what it dominates. -/
theorem Dominates.le {d b : BlockIndex} (h : g.Dominates d b) (hb : b < g.blockCount) : d ≤ b :=
  ((renamed_self hg (bound_eq_none hg hfit.wellFormed)).lt_or_eq_of_dominates hg rfl hfit hord hb
    h).elim Nat.le_of_lt Nat.le_of_eq

/-- A block that is no loop comes behind the blocks that lead to it. -/
theorem lt_of_arc_of_not_loop {p b : BlockIndex} {blk : Block} (hblk : g.blocks[b]? = some blk)
    (hloop : blk.isLoop = false) (harc : g.Arc p b) : p < b :=
  (renamed_self hg (bound_eq_none hg hfit.wellFormed)).lt_of_arc_of_not_loop hg rfl hfit hord hblk
    hloop harc

theorem DominatedUses.definedFirst (h : g.DominatedUses) : g.DefinedFirst :=
  (renamed_self hg (bound_eq_none hg hfit.wellFormed)).definedFirst hg rfl hfit hord h

omit hord in
/-- A phi has an input for each predecessor of its block. -/
theorem DominatedUses.exists_input (h : g.DominatedUses) {b p : BlockIndex} {i : OpIndex}
    {op : Operation} {k : Nat} (hi : i ∈ (g.span b).toList) (hop : g.ops[i]? = some op)
    (hphi : op.isPhi = true) (hk : (g.predecessors b)[k]? = some p) :
    ∃ j d, op.inputs[k]? = some j ∧ j ∈ (g.span d).toList ∧ g.Dominates d p := by
  obtain ⟨blk, hblk⟩ := exists_block (lt_blockCount_of_mem_span hi)
  have harity := (hfit.wellFormed.matched hblk (span_of_block hblk ▸ hi) hop hphi).2
  have hlt := (List.getElem?_eq_some_iff.mp hk).1
  rw [← harity] at hlt
  have hj := List.getElem?_eq_getElem hlt
  obtain ⟨d, hd⟩ := hg.exists_owner
    ((hfit.wellFormed.referring hop).value_lt _ (List.mem_of_getElem? hj))
  exact ⟨_, d, hj, hd, h.phi hop hphi ((hg.mem_span_iff i b).mp hi) hj hk
    ((hg.mem_span_iff _ d).mp hd)⟩

end Graph

end Flowgraph
