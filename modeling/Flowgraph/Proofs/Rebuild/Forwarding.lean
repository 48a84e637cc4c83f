import Flowgraph.Proofs.Rebuild.DominatedUses
import Flowgraph.Proofs.Rebuild.Outcome
import Flowgraph.Proofs.Rebuild.Reduced

/-!
# Forwarded phis

When phis are forwarded, a phi of a merge whose inputs all have one value is not copied, and what
used it uses that value instead. The value can be that of another forwarded phi, so that a chain of
them collapses to one operation. `Forwards` says what this means in the source: a map on the
operations takes a forwarded phi and all of its inputs to the same place.

## Soundness

The predecessors of a merge with a live phi survive, so that the copy of the phi would have had an
input for each input of the phi itself. That all of these are equal says something about every
input, whichever way the merge is entered.

## Chains

The input of a forwarded phi may be a forwarded phi itself. Where definitions dominate their uses,
that of the input dominates a predecessor of the merge and so comes before the merge in reverse
postorder, which is what the induction is on: the operation at the end of a chain dominates all the
phis in it.

## Completeness

The inputs of a phi of a merge are final when it is looked at: its predecessors come before it in
reverse postorder, and nothing that was copied is forwarded later. So a phi that was left then has
two different inputs in the result.
-/

namespace Flowgraph

open Liveness (Thinned)

/-- The phis of merges that `ρ` takes to another operation have inputs that it takes to the same
one. -/
structure Graph.Forwards (g : Graph) (ρ : OpIndex → OpIndex) : Prop where
  root : ∀ i, ρ (ρ i) = ρ i
  phi : ∀ {i : OpIndex}, ρ i ≠ i → ∃ b blk op, i ∈ (g.span b).toList ∧ g.blocks[b]? = some blk ∧
    blk.isLoop = false ∧ g.ops[i]? = some op ∧ op.isPhi = true ∧ ∀ j ∈ op.inputs, ρ j = ρ i

variable {g g' : Graph} {s : Liveness} {β : BlockIndex → Option BlockIndex}
  {ε : OpIndex → Option OpIndex} {ρ : OpIndex → OpIndex}

/-- All inputs of a forwarded phi share its value, as none of its predecessors is lost. -/
theorem Rebuilt.forwards (h : Rebuilt g s g' β ε ρ) (hA : Liveness.Analysed g s)
    (hthin : Thinned g s g' β) : g.Forwards ρ where
  root := h.root
  phi {i} hne := by
    obtain ⟨b, c, blk, op, hm⟩ := h.merged hne
    refine ⟨b, blk, op, hm.mem, hm.block, hm.isLoop, hm.op_eq, hm.isPhi, fun j hj ↦ ?_⟩
    have harity := (hA.fit.wellFormed.matched hm.block (Graph.span_of_block hm.block ▸ hm.mem)
      hm.op_eq hm.isPhi).2
    obtain ⟨k, hk⟩ := List.mem_iff_getElem?.mp hj
    have hlt := (List.getElem?_eq_some_iff.mp hk).1
    rw [harity] at hlt
    obtain ⟨p', r, q, hp', hslot, hq⟩ := hthin.exists_slot hA hm.copy
      (hA.stays_of_livePhi hm.mem hm.op_eq hm.isPhi hm.isLive) (List.getElem?_eq_getElem hlt)
    obtain ⟨k', j', hk', hj', hroot⟩ := hm.input hp' hq
    cases hslot.symm.trans hk'
    cases hk.symm.trans hj'
    exact hroot

section

variable (hg : g.Sound) (hfit : g.Fit) (hord : g.InReversePostorder) (huses : g.DominatedUses)

include hg hfit hord huses

/-- The operation that stands for a forwarded phi is defined in a block that dominates the merge. -/
theorem Graph.Forwards.dominates (h : g.Forwards ρ) {i : OpIndex} {b d : BlockIndex}
    (hne : ρ i ≠ i) (hi : i ∈ (g.span b).toList) (hd : ρ i ∈ (g.span d).toList) :
    d < b ∧ g.Dominates d b := by
  induction b using Nat.strongRecOn generalizing i with
  | ind b ih =>
    obtain ⟨b', blk, op, hi', hblk, hloop, hop, hphi, hinputs⟩ := h.phi hne
    obtain rfl := hg.span_disjoint hi hi'
    have hjoined := hfit.wellFormed.joined hblk
    have hentry : b ≠ 0 := by
      intro hzero
      have hkind :=
        (hfit.wellFormed.matched hblk (Graph.span_of_block hblk ▸ hi) hop hphi).1
      rw [Block.isLoop, Block.isMerge, hjoined.entry_iff.mpr hzero] at hkind
      simp at hkind
    -- the definition dominates every predecessor, directly or through another forwarded phi
    have hpreds : ∀ p, g.Arc p b → g.Dominates d p := by
      intro p harc
      obtain ⟨k, hk⟩ := List.mem_iff_getElem?.mp (hg.mem_predecessors_iff.mpr harc)
      obtain ⟨j, e, hj, he, hdom⟩ := huses.exists_input hg hfit hi hop hphi hk
      have hsame := hinputs j (List.mem_of_getElem? hj)
      by_cases hroot : ρ j = j
      · rw [← hsame, hroot] at hd
        exact hg.span_disjoint he hd ▸ hdom
      · have hep := hdom.le hg hfit hord (hg.arc_lt harc).1
        have hpb := Graph.lt_of_arc_of_not_loop hg hfit hord hblk hloop harc
        exact (ih e (Nat.lt_of_le_of_lt hep hpb) hroot he (hsame.symm ▸ hd)).2.trans hdom
    obtain ⟨p, hp⟩ := List.exists_mem_of_ne_nil _ (mt hjoined.no_predecessors_iff.mp hentry)
    have harc := hg.mem_predecessors_iff.mp hp
    have hle := (hpreds p harc).le hg hfit hord (hg.arc_lt harc).1
    exact ⟨Nat.lt_of_le_of_lt hle (Graph.lt_of_arc_of_not_loop hg hfit hord hblk hloop harc),
      Graph.dominates_of_arcs hentry hpreds⟩

end

/-- A phi of a merge has two different inputs. -/
def Graph.PhisDiffer (g : Graph) : Prop :=
  ∀ {b : BlockIndex} {blk : Block} {i : OpIndex} {op : Operation}, g.blocks[b]? = some blk →
    blk.isMerge = true → i ∈ (g.span b).toList → g.ops[i]? = some op → op.isPhi = true →
    ¬∃ x, ∀ y ∈ op.inputs, y = x

private theorem Image.isPhi_eq {ω : OpIndex → Option OpIndex} {i : OpIndex} {op op' : Operation}
    (h : Image s β ω i op op') : op'.isPhi = op.isPhi := by
  cases h with
  | rewritten ht =>
    have hjump : op.isJump = true := Liveness.isJump_of_rewrite (by rw [ht]; rfl)
    cases hphi : op.isPhi with
    | false => rfl
    | true =>
      rw [(Liveness.isRequired_of_isPhi hphi).2] at hjump
      cases hjump
  | phi _ _ haction => rw [Operation.isPhi, haction, ← Operation.isPhi]
  | renamed _ _ _ hren => exact hren.sort_eq.2.1

private theorem Draft.isMerge {a : Assembler} {out : Graph} (h : Draft g s g.blockCount [] a)
    (hdem : Demoted a.output out) (hre : out.reorder a.filled.toList = .ok g') {b c : BlockIndex}
    {blk blk' : Block} (hb : (a.copy? b).map a.filled.toList.idxOf = some c)
    (hblk : g.blocks[b]? = some blk) (hblk' : g'.blocks[c]? = some blk')
    (hmerge : blk'.isMerge = true) : blk.isMerge = true := by
  have hout := hdem.alike.sound h.sound
  obtain ⟨d, hd, rfl⟩ := Option.map_eq_some_iff.mp hb
  have hlt : d < out.blockCount := by
    rw [hdem.alike.blockCount_eq]
    exact h.copy_lt hd
  obtain ⟨blk₁, hblk₁⟩ := Graph.exists_block hlt
  obtain ⟨blk₂, hblk₂, hkind, -⟩ := (Graph.reorder_renamed hout hre).block hblk₁
  cases hblk₂.symm.trans hblk'
  rcases h.kind_cases hdem hd hblk hblk₁ with hsame | ⟨hmerge, -⟩
  · rwa [Block.isMerge, hkind, hsame, ← Block.isMerge] at hmerge
  · exact hmerge

/-- Rebuilding with forwarded phis succeeds, and leaves no phi of a merge that could still be
forwarded. -/
theorem exists_forwarded (hA : Liveness.Analysed g s) (hready : Liveness.Ready g s) :
    ∃ g' β ε ρ, g.rebuild (Graph.eliminators s true) = .ok g' ∧ Rebuilt g s g' β ε ρ ∧
      Thinned g s g' β ∧ g'.PhisDiffer := by
  have hpos := hA.fit.wellFormed.pos
  obtain ⟨g', hrebuild, -, hfit', -⟩ := exists_rebuild hA hready true
  obtain ⟨c, a₁, a₂, a, hmap, hcopy, hphis, h, -⟩ := exists_draft hA hready true
  obtain ⟨c', a₁', a₂', a', hmap', hcopy', hphis', hre⟩ := Build.yields_of_rebuild hpos hrebuild
  obtain ⟨-, rfl⟩ := hmap.unique hmap'
  obtain ⟨-, rfl⟩ := hcopy.unique hcopy'
  obtain ⟨-, rfl⟩ := hphis.unique hphis'
  obtain ⟨ρ, hassembled, hcomplete⟩ := assembled_of_yields hA hmap hcopy hphis
  have hdem := demoted_demoteMerges a.output
  have hrebuilt :=
    hassembled.rebuilt hdem.alike hdem.ops_eq hre (Nat.ne_of_gt hpos) hcomplete
  have hthin := h.thinned hA hdem hre
  refine ⟨g', _, _, ρ, hrebuild, hrebuilt, hthin, ?_⟩
  intro c blk' v op' hblk' hmerge hv hop' hphi'
  rintro ⟨x, hx⟩
  obtain ⟨b, hb⟩ := hthin.surj (Graph.lt_blockCount hblk')
  obtain ⟨blk, hblk⟩ := Graph.exists_block (hrebuilt.block_lt hb)
  have hkind : blk.kind = .merge := by
    simpa [Block.isMerge] using h.isMerge hdem hre hb hblk hblk' hmerge
  have hloop : blk.isLoop = false := by simp [Block.isLoop, hkind]
  have hmem := hv
  rw [hrebuilt.span hb, List.mem_filterMap] at hmem
  obtain ⟨i, hi, hiv⟩ := hmem
  obtain ⟨op, hop⟩ := Graph.exists_op (hA.sound.lt_of_mem_span hi)
  obtain ⟨op₁, hop₁, himage⟩ := hrebuilt.image hiv hop
  cases hop'.symm.trans hop₁
  rw [himage.isPhi_eq] at hphi'
  have hdistinct := hassembled.distinct hdem.alike hdem.ops_eq hre rfl hiv hi hop hphi' hop' hblk
    hloop
  have hne : op'.inputs ≠ [] := by
    intro hnil
    have harity := (hfit'.wellFormed.matched hblk' (Graph.span_of_block hblk' ▸ hv) hop'
      (himage.isPhi_eq.trans hphi')).2
    rw [hnil, List.length_nil, eq_comm, List.length_eq_zero_iff] at harity
    have hjoined := hfit'.wellFormed.joined hblk'
    have hentry := hjoined.entry_iff.mpr (hjoined.no_predecessors_iff.mp harity)
    simp [Block.isMerge, hentry] at hmerge
  obtain ⟨z, hz⟩ := List.exists_mem_of_ne_nil _ hne
  obtain ⟨y, hy, hyz⟩ := hdistinct z hz
  exact hyz ((hx y hy).trans (hx z hz).symm)

end Flowgraph
