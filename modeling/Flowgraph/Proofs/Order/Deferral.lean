import Flowgraph.Order.Deferral
import Flowgraph.Proofs.Order.Fitness

/-!
# Deferred blocks

Propagation touches nothing but the flags of the blocks, and no check looks at them: a graph is as
well formed and as well ordered afterwards as it was before.
-/

namespace Flowgraph

private theorem Discovery.visit_congr {g g' : Graph} (h : ∀ b, g'.successors b = g.successors b) :
    ∀ (depth : Nat) (b : BlockIndex) (s : Discovery), visit g' depth b s = visit g depth b s := by
  intro depth
  induction depth with
  | zero => exact fun _ _ ↦ rfl
  | succ depth ih =>
    intro b s
    simp only [visit, h, ih]

namespace Graph

variable {g g' : Graph}

theorem Alike.discovery_eq (h : Alike g g') : g'.discovery = g.discovery := by
  rw [discovery, discovery, h.blockCount_eq, Discovery.visit_congr h.successors_eq]

private theorem Alike.arc_iff (h : Alike g g') {u v : BlockIndex} : g'.Arc u v ↔ g.Arc u v := by
  rw [Arc, Arc, h.successors_eq]

theorem Alike.inReversePostorder (h : Alike g g') (hord : g.InReversePostorder) :
    g'.InReversePostorder := by
  intro u v harc
  rw [backedges, h.discovery_eq]
  exact hord u v (h.arc_iff.mp harc)

/-- `g'` is `g` with other flags. -/
structure Flagged (g g' : Graph) : Prop where
  alike : Alike g g'
  name_eq : g'.name = g.name
  ops_eq : g'.ops = g.ops
  block : ∀ {b : BlockIndex} {blk' : Block}, g'.blocks[b]? = some blk' →
    ∃ blk, g.blocks[b]? = some blk ∧ blk'.kind = blk.kind ∧ blk'.span? = blk.span?

theorem Flagged.refl (g : Graph) : Flagged g g := ⟨.refl g, rfl, rfl, fun h ↦ ⟨_, h, rfl, rfl⟩⟩

theorem Flagged.deferBlock (h : Flagged g g') (b : BlockIndex) : Flagged g (g'.deferBlock b) := by
  refine ⟨h.alike.trans (alike_modify_block g' b fun _ ↦ rfl), h.name_eq, h.ops_eq,
    fun {c blk'} hblk' ↦ ?_⟩
  rw [Graph.deferBlock, Array.getElem?_modify] at hblk'
  split at hblk'
  · obtain ⟨blk₁, hblk₁, rfl⟩ := Option.map_eq_some_iff.mp hblk'
    obtain ⟨blk, hblk, hkind, hspan⟩ := h.block hblk₁
    exact ⟨blk, hblk, hkind, hspan⟩
  · exact h.block hblk'

theorem flagged_propagateDeferred (g : Graph) : Flagged g g.propagateDeferred := by
  suffices hfold : ∀ (l : List BlockIndex) (g' : Graph), Flagged g g' →
      Flagged g (l.foldl Graph.deferBlock g') from hfold _ g (.refl g)
  intro l
  induction l with
  | nil => exact fun _ h ↦ h
  | cons b l ih => exact fun g' h ↦ ih _ (h.deferBlock b)

namespace Flagged

variable (h : Flagged g g')

include h

private theorem wellFormed (hwf : g.WellFormed) : g'.WellFormed where
  pos := by rw [h.alike.blockCount_eq]; exact hwf.pos
  terminated {b blk'} hblk' := by
    obtain ⟨blk, hblk, -, hspan⟩ := h.block hblk'
    obtain ⟨hlast, honly⟩ := hwf.terminated hblk
    constructor
    · simp only [Block.span, hspan, h.ops_eq]
      exact hlast
    · simp only [Block.span, hspan, h.ops_eq]
      exact honly
  referring {i op} hop := by
    rw [h.ops_eq] at hop
    obtain ⟨hvalue, htarget, hcondition⟩ := hwf.referring hop
    exact ⟨h.alike.opCount_eq ▸ hvalue, h.alike.blockCount_eq ▸ htarget, hcondition⟩
  joined {b blk'} hblk' := by
    obtain ⟨blk, hblk, hkind, -⟩ := h.block hblk'
    obtain ⟨hentry, hnone, hplain⟩ := hwf.joined hblk
    rw [← h.alike.predecessors_eq] at hnone hplain
    exact ⟨hkind ▸ hentry, hnone, hkind ▸ hplain⟩
  matched {b blk'} hblk' {i op} hi hop hphi := by
    obtain ⟨blk, hblk, hkind, hspan⟩ := h.block hblk'
    rw [Block.span, hspan, ← Block.span] at hi
    rw [h.ops_eq] at hop
    rw [Block.isLoop, Block.isMerge, hkind, h.alike.predecessors_eq]
    exact hwf.matched hblk hi hop hphi

theorem fit (hfit : g.Fit) : g'.Fit where
  wellFormed := h.wellFormed hfit.wellFormed
  reached := by
    rw [h.alike.blockCount_eq, h.alike.discovery_eq]
    exact hfit.reached
  loopsMarked {b blk'} hblk' := by
    obtain ⟨blk, hblk, hkind, -⟩ := h.block hblk'
    rw [backedges, h.alike.discovery_eq, Block.isLoop, hkind]
    exact hfit.loopsMarked hblk

end Flagged

end Graph

end Flowgraph
