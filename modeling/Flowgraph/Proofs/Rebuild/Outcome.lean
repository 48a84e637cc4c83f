import Flowgraph.Proofs.Liveness.Least
import Flowgraph.Proofs.Rebuild.Drafting
import Flowgraph.Proofs.Rebuild.Reduced

/-!
# Elimination gives a verified graph again

The whole draft of a graph is renumbered in the order in which it was filled, which is the order of
the source. What comes out is the remaining graph of the survivors, and it has no problems: it is
well-formed, its loop blocks are the targets of its backedges, and it is in reverse postorder.

## Kinds

A block keeps its kind, except for merges that have become plain. A plain block has one predecessor
because rewritten jumps lead to merges only, and a loop block keeps a backedge because no jump to
it is rewritten.
-/

namespace Flowgraph

open Liveness (Survives exits HasLivePhi Thinned)

variable {g : Graph} {s : Liveness} {a : Assembler}

/-! ## The order of the survivors

The blocks of the draft are filled in the order of their sources, and all of them are filled.
Sorting by source is therefore what the final renumbering does. -/

namespace Draft

variable (h : Draft g s g.blockCount [] a) (hA : Liveness.Analysed g s)

include h hA

private theorem copied_iff {b : BlockIndex} : (a.copy? b).isSome = true ↔ Survives g s b := by
  constructor
  · intro hsome
    obtain ⟨c, hc⟩ := Option.isSome_iff_exists.mp hsome
    exact h.survives hc
  · intro hb
    obtain ⟨c, hc⟩ := h.copied hb (Or.inl (hA.survives_lt hb))
    rw [hc, Option.isSome_some]

omit hA in
theorem nodup_filled : a.filled.toList.Nodup := by
  rw [h.filled_eq]
  refine List.Nodup.filterMap (fun b b' c hb hb' ↦ ?_) List.nodup_range
  exact h.copy_inj hb hb'

private theorem filled_perm : a.filled.toList.Perm (List.range a.output.blockCount) := by
  rw [List.perm_ext_iff_of_nodup h.nodup_filled List.nodup_range]
  intro c
  rw [h.filled_eq, List.mem_filterMap, List.mem_range]
  constructor
  · rintro ⟨b, -, hb⟩
    exact h.copy_lt hb
  · intro hc
    obtain ⟨b, hb⟩ := h.exists_copied hc
    exact ⟨b, List.mem_range.mpr (hA.survives_lt (h.survives hb)), hb⟩

private theorem idxOf_filled_lt {b b' c c' : BlockIndex} (hb : a.copy? b = some c)
    (hb' : a.copy? b' = some c') (hlt : b < b') :
    a.filled.toList.idxOf c < a.filled.toList.idxOf c' := by
  have hb'lt := hA.survives_lt (h.survives hb')
  have hpair : [b, b'].Sublist (List.range g.blockCount) := by
    rw [← Nat.add_sub_cancel' (Nat.le_of_lt hb'lt), List.range_add]
    refine pair_of_mem_append (List.mem_range.mpr hlt) (List.mem_map.mpr ⟨0, ?_, rfl⟩)
    rw [List.mem_range]
    lia
  have hfilled := hpair.filterMap a.copy?
  rw [← h.filled_eq] at hfilled
  refine idxOf_lt_idxOf_of_pair h.nodup_filled ?_
  simpa [hb, hb'] using hfilled

theorem idxOf_filled_zero : a.filled.toList.idxOf 0 = 0 := by
  obtain ⟨k, hk⟩ := Nat.exists_eq_succ_of_ne_zero (Nat.ne_of_gt hA.fit.wellFormed.pos)
  rw [h.filled_eq, hk, List.range_succ_eq_map, List.filterMap_cons_some h.entry,
    List.idxOf_cons_self]

/-! ## The remaining graph

How the survivors are joined and what kinds they have, and from this each of the rules that
verification checks. -/

variable {out g' : Graph} (hdem : Demoted a.output out)
  (hre : out.reorder a.filled.toList = .ok g')

include hdem

omit hA in
/-- A block of the result keeps its kind, or was a merge. -/
theorem kind_cases {b c : BlockIndex} {blk blk' : Block} (hc : a.copy? b = some c)
    (hblk : g.blocks[b]? = some blk) (hblk' : out.blocks[c]? = some blk') :
    blk'.kind = blk.kind ∨ blk.isMerge = true ∧ blk'.kind = .plain ∧
      (out.predecessors c).length = 1 ∧
      ∀ {i : OpIndex} {op : Operation}, i ∈ blk'.span.toList → out.ops[i]? = some op →
        op.isPhi = false := by
  obtain ⟨blk₀, hblk₀, hspan, -, hkind⟩ := hdem.block hblk'
  have hsame := h.kind hc hblk hblk₀
  rw [hdem.alike.predecessors_eq, hdem.ops_eq, hspan, ← hsame]
  refine hkind.imp_right fun ⟨hmerge, hrest⟩ ↦ ⟨?_, hrest⟩
  rwa [Block.isMerge, ← hsame, ← Block.isMerge]

include hre

/-- The result is the graph of the survivors. -/
theorem thinned : Thinned g s g' fun b ↦ (a.copy? b).map a.filled.toList.idxOf := by
  have hout := hdem.alike.sound h.sound
  have hren := Graph.reorder_renamed hout hre
  have hlt : ∀ {b c}, a.copy? b = some c → c < out.blockCount := fun hc ↦ by
    rw [hdem.alike.blockCount_eq]
    exact h.copy_lt hc
  have hlt' : ∀ {b b' c c'}, a.copy? b = some c → a.copy? b' = some c' → b < b' →
      a.filled.toList.idxOf c < a.filled.toList.idxOf c' := h.idxOf_filled_lt hA
  refine {
    sound := hren.sound hout
    isSome_iff := fun {b} ↦ by rw [Option.isSome_map]; exact h.copied_iff hA
    lt_iff := fun {b b' c c'} hb hb' ↦ ?_
    block_lt := fun {b c} hb ↦ ?_
    surj := fun {c} hc ↦ ?_
    entry := by rw [h.entry, Option.map_some, h.idxOf_filled_zero hA]
    successors := fun {b c} hb ↦ ?_
    isLoop := fun {b c blk blk'} hb hblk hblk' ↦ ?_ }
  · obtain ⟨d, hd, rfl⟩ := Option.map_eq_some_iff.mp hb
    obtain ⟨d', hd', rfl⟩ := Option.map_eq_some_iff.mp hb'
    refine ⟨hlt' hd hd', fun hidx ↦ ?_⟩
    rcases Nat.lt_trichotomy b b' with hbb | rfl | hbb
    · exact hbb
    · cases hd.symm.trans hd'
      exact absurd hidx (Nat.lt_irrefl _)
    · exact absurd hidx (Nat.lt_asymm (hlt' hd' hd hbb))
  · obtain ⟨d, hd, rfl⟩ := Option.map_eq_some_iff.mp hb
    rw [hren.blockCount_eq]
    exact hren.block_lt (hlt hd)
  · obtain ⟨d, hd, rfl⟩ := hren.block_surj (hren.blockCount_eq ▸ hc)
    obtain ⟨b, hb⟩ := h.exists_copied (hdem.alike.blockCount_eq ▸ hd)
    exact ⟨b, by rw [hb, Option.map_some]⟩
  · obtain ⟨d, hd, rfl⟩ := Option.map_eq_some_iff.mp hb
    have hbound : a.output.bound = none := hdem.alike.bound ▸ hren.bound_eq
    have hclosed := h.closed hd (hA.survives_lt (h.survives hd)) (by rw [hbound]; nofun)
    rw [hren.successors_eq hout (hlt hd), hdem.alike.successors_eq]
    calc (exits g s b).map (fun b ↦ (a.copy? b).map a.filled.toList.idxOf)
        = ((exits g s b).map a.copy?).map (Option.map a.filled.toList.idxOf) := by
          rw [List.map_map]; rfl
      _ = ((a.output.successors d).map a.filled.toList.idxOf).map some := by
          rw [hclosed.2, List.map_map, List.map_map]; rfl
  · obtain ⟨d, hd, rfl⟩ := Option.map_eq_some_iff.mp hb
    obtain ⟨blk₀, hblk₀⟩ := Graph.exists_block (hlt hd)
    obtain ⟨blk₁, hblk₁, hkind, -, -⟩ := hren.block hblk₀
    cases hblk₁.symm.trans hblk'
    rw [Block.isLoop, hkind, Block.isLoop]
    rcases h.kind_cases hdem hd hblk hblk₀ with hsame | ⟨hmerge, hplain, -⟩
    · rw [hsame]
    · have : blk.kind = .merge := by simpa [Block.isMerge] using hmerge
      simp [hplain, this]

private theorem joined {c : BlockIndex} {blk' : Block} (hblk' : out.blocks[c]? = some blk') :
    out.Joined c blk' := by
  have hout := hdem.alike.sound h.sound
  have hren := Graph.reorder_renamed hout hre
  have hthin := h.thinned hA hdem hre
  have hc := Graph.lt_blockCount hblk'
  obtain ⟨b, hb⟩ := h.exists_copied (hdem.alike.blockCount_eq ▸ hc)
  obtain ⟨blk, hblk⟩ := Graph.exists_block (hA.survives_lt (h.survives hb))
  have hβ : (a.copy? b).map a.filled.toList.idxOf = some (a.filled.toList.idxOf c) := by
    rw [hb, Option.map_some]
  have hpreds := hren.predecessors_eq hout hc
  have hnone : out.predecessors c = [] ↔ b = 0 := by
    rw [← hthin.no_predecessors_iff hA hβ, hpreds, List.map_eq_nil_iff]
  have hzero : b = 0 ↔ c = 0 := by
    constructor
    · rintro rfl
      exact Option.some.inj (hb.symm.trans h.entry)
    · rintro rfl
      exact h.copy_inj hb h.entry
  have hentry : blk'.kind = .entry ↔ blk.kind = .entry := by
    rcases h.kind_cases hdem hb hblk hblk' with hsame | ⟨hmerge, hplain, -⟩
    · rw [hsame]
    · have hkind : blk.kind = .merge := by simpa [Block.isMerge] using hmerge
      simp [hplain, hkind]
  have hjoined := hA.fit.wellFormed.joined hblk
  refine ⟨hentry.trans (hjoined.entry_iff.trans hzero), hnone.trans hzero, fun hplain ↦ ?_⟩
  rcases h.kind_cases hdem hb hblk hblk' with hsame | ⟨-, -, hlen, -⟩
  · -- a plain block is no merge, so that no jump is rewritten to lead there
    rw [hsame] at hplain
    have hle := hthin.length_predecessors_le hA hβ fun hout ↦ by
      have hmerge := hout.merge hblk
      simp [Block.isMerge, hplain] at hmerge
    rw [hjoined.plain hplain, hpreds, List.length_map] at hle
    have hne : out.predecessors c ≠ [] := fun hnil ↦ by
      have hkind := hjoined.entry_iff.mpr (hnone.mp hnil)
      rw [hplain] at hkind
      cases hkind
    have hpos := List.length_pos_iff.mpr hne
    omega
  · exact hlen

omit hre in
private theorem terminated (hbound : a.output.bound = none) {c : BlockIndex} {blk' : Block}
    (hblk' : out.blocks[c]? = some blk') : out.Terminated blk' := by
  have hout := hdem.alike.sound h.sound
  have hc := Graph.lt_blockCount hblk'
  obtain ⟨b, hb⟩ := h.exists_copied (hdem.alike.blockCount_eq ▸ hc)
  have hne := (h.closed hb (hA.survives_lt (h.survives hb)) (by rw [hbound]; nofun)).1
  rw [← hdem.alike.span_eq] at hne
  have hspan := Graph.span_of_block hblk'
  refine ⟨?_, fun {i op} hi hop hend ↦ ?_⟩
  · obtain ⟨i, hi⟩ := Option.ne_none_iff_exists'.mp (mt Span.last?_eq_none.mp hne)
    obtain ⟨op, hop⟩ := Graph.exists_op (hout.lt_of_mem_span (Span.last?_mem hi))
    refine ⟨i, op, hspan ▸ hi, hop, hout.closed hi ?_ hop⟩
    rw [hdem.alike.bound, hbound]
    nofun
  · rw [← hspan] at hi ⊢
    exact (hout.ends hi hop hend).1

omit hA hre in
private theorem referring {i : OpIndex} {op : Operation} (hop : out.ops[i]? = some op) :
    out.Referring op := by
  have hout := hdem.alike.sound h.sound
  have hop₀ : a.output.ops[i]? = some op := by rw [← hdem.ops_eq]; exact hop
  refine ⟨fun j hj ↦ ?_, fun t ht ↦ ?_, fun haction ↦ h.condition hop₀ haction⟩
  · rw [hdem.alike.opCount_eq]
    rcases h.values hop₀ with ⟨_, hmem⟩ | hvalues
    · cases hmem
    · exact hvalues j hj
  · obtain ⟨c, hc⟩ := hout.exists_owner (Graph.lt_opCount hop)
    have hterm := (hout.ends hc hop (Operation.isTerminator_of_mem_successors ht)).1
    rw [← Graph.successors_of_terminator hterm hop] at ht
    exact hout.target_lt ht

omit hre in
private theorem matched {c : BlockIndex} {blk' : Block} (hblk' : out.blocks[c]? = some blk') :
    out.Matched c blk' := by
  intro v op hv hop hphi
  have hc := Graph.lt_blockCount hblk'
  obtain ⟨b, hb⟩ := h.exists_copied (hdem.alike.blockCount_eq ▸ hc)
  obtain ⟨blk, hblk⟩ := Graph.exists_block (hA.survives_lt (h.survives hb))
  have hv' : v ∈ (a.output.span c).toList := by
    rwa [← hdem.alike.span_eq, Graph.span_of_block hblk']
  have hop₀ : a.output.ops[v]? = some op := by rw [← hdem.ops_eq]; exact hop
  obtain ⟨⟨i, op₀, hi, hop₁, hphi₀, -⟩, -, hmatched⟩ := h.phi hb hv' hop₀ hphi hblk
  rw [Graph.span_of_block hblk] at hi
  have hjoin := (hA.fit.wellFormed.matched hblk hi hop₁ hphi₀).1
  refine ⟨?_, ?_⟩
  · rcases h.kind_cases hdem hb hblk hblk' with hsame | ⟨-, -, -, hnone⟩
    · rwa [Block.isLoop, Block.isMerge, hsame, ← Block.isLoop, ← Block.isMerge]
    · rw [hnone hv hop] at hphi
      cases hphi
  · rw [hdem.alike.predecessors_eq]
    rcases hmatched with ⟨_, hmem⟩ | hlen
    · cases hmem
    · exact hlen

end Draft

/-! ## Elimination

Analysis, rebuilding and demotion one after the other. -/

/-- Rebuilding succeeds, and its result has no problems. -/
theorem exists_rebuild (hA : Liveness.Analysed g s) (hready : Liveness.Ready g s)
    (forwardPhis : Bool) :
    ∃ g', g.rebuild (Graph.eliminators s forwardPhis) = .ok g' ∧ g'.Sound ∧ g'.Fit ∧
      g'.InReversePostorder := by
  obtain ⟨c, a₁, a₂, a, hmap, hcopy, hphis, h, hbound⟩ := exists_draft hA hready forwardPhis
  have hdem := demoted_demoteMerges a.output
  have hout := hdem.alike.sound h.sound
  have hperm : a.filled.toList.Perm (List.range a.output.demoteMerges.blockCount) := by
    rw [hdem.alike.blockCount_eq]
    exact h.filled_perm hA
  have hre := Graph.reorder_of_perm hout (hdem.alike.bound.trans hbound) hperm
    fun hop ↦ (h.referring hdem hop).value_lt
  have hren := Graph.reorder_renamed hout hre
  have hthin := h.thinned hA hdem hre
  have hwf : a.output.demoteMerges.WellFormed := {
    pos := by rw [hdem.alike.blockCount_eq]; exact h.copy_lt h.entry
    terminated := h.terminated hA hdem hbound
    referring := h.referring hdem
    joined := h.joined hA hdem hre
    matched := h.matched hA hdem }
  exact ⟨_, Build.rebuild_of_yields hA.fit.wellFormed.pos hmap hcopy hphis hre, hren.sound hout,
    ⟨hren.wellFormed hout (h.idxOf_filled_zero hA) hwf, hthin.reached, hthin.loopsMarked hA⟩,
    hthin.inReversePostorder hA⟩

/-- Elimination succeeds, and its result has no problems. -/
theorem exists_eliminate (hg : g.Sound) (hfit : g.Fit) (hord : g.InReversePostorder)
    (hdef : g.DefinedFirst) (hused : g.DeadUnused) (forwardPhis : Bool) :
    ∃ g' s, g.eliminate forwardPhis = .ok (g', s) ∧ g'.problems true = [] := by
  obtain ⟨s, hs⟩ := Liveness.exists_liveness hg hfit hord hused
  obtain ⟨hsized, hstable⟩ := Liveness.stable_of_liveness hg hfit hord hs
  obtain ⟨g', hg', hsound, hfit', hord'⟩ :=
    exists_rebuild (Liveness.Stabilized.of_stable hg hfit hord hsized hstable).toAnalysed
      (Liveness.ready_of_definedFirst hg hdef s) forwardPhis
  refine ⟨g', s, ?_, (Graph.problems_eq_nil hsound true).mpr ⟨hfit', fun _ ↦ hord'⟩⟩
  rw [Graph.eliminate, hs, ok_bind, hg', ok_bind]
  rfl

/-- Eliminating the dead operations of a verified graph succeeds if values are defined before they
are used and no operation that was removed earlier is used, and the result is verified again. -/
theorem problems_of_eliminate {g : Graph} (hbuilt : g.Built) (hfit : g.problems true = [])
    (hdef : g.DefinedFirst) (hused : g.DeadUnused) (forwardPhis : Bool) :
    ∃ g' s, g.eliminate forwardPhis = .ok (g', s) ∧ g'.problems true = [] := by
  have hg := hbuilt.sound
  obtain ⟨hf, hord⟩ := (Graph.problems_eq_nil hg true).mp hfit
  exact exists_eliminate hg hf (hord rfl) hdef hused forwardPhis

def Graph.ofBlocks (blocks : List (BlockKind × List Operation)) : Except Breach Graph := do
  let g ← blocks.foldlM (fun g e ↦ g.addBlock e.1 false) (.empty .empty)
  blocks.zipIdx.foldlM (fun g e ↦ do (← g.bind e.2).addOperations e.1.2) g

theorem Graph.ofBlocks_built {blocks : List (BlockKind × List Operation)} {g : Graph}
    (h : ofBlocks blocks = .ok g) : g.Built := by
  obtain ⟨g₀, h₀, h⟩ := exists_of_bind_ok h
  have hblocks : g₀.Built := foldlM_keeps (fun hg h ↦ hg.addBlock h) (.empty .empty) h₀
  refine foldlM_keeps (fun {g e g'} hg hfill ↦ ?_) hblocks h
  obtain ⟨g₁, hbind, hadd⟩ := exists_of_bind_ok hfill
  exact (hg.bind hbind).addOperations hadd

/-- A loop that counts: its first phi takes the number to start with from outside and the next one
from the backedge. A second phi counts along and is not used. -/
def counterBlocks : List (BlockKind × List Operation) :=
  [(.entry, [.pure .empty [], .goto 1]),
    (.loop, [⟨.phi .word32, [0, 5]⟩, ⟨.phi .word32, [0, 3]⟩, .branch 2 2 3 .towardTrue]),
    (.plain, [.pure .empty [2], .goto 1]),
    (.plain, [.ret [2]])]

def Graph.sampleCounter : Graph := (ofBlocks counterBlocks).toOption.getD (.empty .empty)

theorem problems_of_eliminate_sampleCounter :
    ∃ g' s, Graph.sampleCounter.eliminate true = .ok (g', s) ∧ g'.problems true = [] :=
  problems_of_eliminate (Graph.ofBlocks_built (show Graph.ofBlocks counterBlocks = _ from rfl))
    (by decide) (by decide) (by decide) true

end Flowgraph
