import Flowgraph.Proofs.Order.Deferral
import Flowgraph.Proofs.Rebuild.Outcome

/-!
# Deferred blocks and cold paths

In a graph in reverse postorder the flag of a block follows from those of the blocks before it. One
sweep settles all of them, so that the flags that were there before do not matter.

A block is not deferred if some path leads to it that takes no cold edge. Along such a path no block
is deferred: a loop header follows the only block before it that leads to it, any other block has
its flag cleared by the edge. The other way round a block that is not deferred has such an edge from
a block before it that is not deferred.

## Backedges

The sweep reads the flag of a header off the edge from before the loop. A path that enters the loop
past the header and comes to the header over a backedge takes no part in this. If the header
dominates the source of each of its backedges there is no such path: whoever takes the backedge was
at the header before.
-/

namespace Flowgraph

namespace Graph

variable {g g' s s' : Graph} {b p c : BlockIndex}

/-! ## Graphs that differ in flags

The flags of a graph are told apart from everything else in it. What a block looks at in order to
settle its flag does not depend on the flags of the blocks behind. -/

/-- The graph with the flags that `f` gives to its blocks. -/
def withFlags (g : Graph) (f : BlockIndex → Bool) : Graph :=
  { g with blocks := g.blocks.mapIdx fun b blk ↦ { blk with deferred := f b } }

theorem isDeferred_of_block {blk : Block} (hblk : g.blocks[b]? = some blk) :
    g.isDeferred b = blk.deferred := by
  rw [isDeferred, hblk, Option.map_some, Option.getD_some]

private theorem Alike.symm (h : Alike g g') : Alike g' g :=
  ⟨fun i ↦ (h.actions i).symm, h.owners.symm, fun b ↦ (h.spans b).symm, h.edges.symm, h.bound.symm⟩

theorem flagged_withFlags (g : Graph) (f : BlockIndex → Bool) : Flagged g (g.withFlags f) where
  alike := by
    refine ⟨fun _ ↦ rfl, rfl, fun b ↦ ?_, rfl, rfl⟩
    rw [withFlags, Array.getElem?_mapIdx, Option.map_map]
    rfl
  name_eq := rfl
  ops_eq := rfl
  block {b blk'} hblk' := by
    rw [withFlags, Array.getElem?_mapIdx] at hblk'
    obtain ⟨blk, hblk, rfl⟩ := Option.map_eq_some_iff.mp hblk'
    exact ⟨blk, hblk, rfl, rfl⟩

namespace Flagged

theorem symm (h : Flagged g g') : Flagged g' g where
  alike := h.alike.symm
  name_eq := h.name_eq.symm
  ops_eq := h.ops_eq.symm
  block {b blk} hblk := by
    obtain ⟨blk', hblk'⟩ := exists_block (h.alike.blockCount_eq ▸ lt_blockCount hblk)
    obtain ⟨blk₀, hblk₀, hkind, hspan⟩ := h.block hblk'
    rw [hblk, Option.some.injEq] at hblk₀
    subst hblk₀
    exact ⟨blk', hblk', hkind.symm, hspan.symm⟩

theorem trans {g'' : Graph} (h : Flagged g g') (h' : Flagged g' g'') : Flagged g g'' where
  alike := h.alike.trans h'.alike
  name_eq := h'.name_eq.trans h.name_eq
  ops_eq := h'.ops_eq.trans h.ops_eq
  block hblk'' := by
    obtain ⟨blk', hblk', hkind', hspan'⟩ := h'.block hblk''
    obtain ⟨blk, hblk, hkind, hspan⟩ := h.block hblk'
    exact ⟨blk, hblk, hkind'.trans hkind, hspan'.trans hspan⟩

/-- The flags are all that two such graphs differ in. -/
theorem eq_of_flags (h : Flagged g g')
    (hflags : ∀ b < g.blockCount, g'.isDeferred b = g.isDeferred b) : g' = g := by
  have hblocks : g'.blocks = g.blocks := by
    refine Array.ext_getElem? fun b ↦ ?_
    cases hblk' : g'.blocks[b]? with
    | none =>
      have hout : ¬b < g.blockCount := fun hb ↦ by
        obtain ⟨blk', hsome⟩ := exists_block (h.alike.blockCount_eq ▸ hb)
        rw [hblk'] at hsome
        cases hsome
      exact (Array.getElem?_eq_none (Nat.not_lt.mp hout)).symm
    | some blk' =>
      obtain ⟨blk, hblk, hkind, hspan⟩ := h.block hblk'
      have hflag := hflags b (lt_blockCount hblk)
      rw [isDeferred_of_block hblk', isDeferred_of_block hblk] at hflag
      rw [hblk]
      obtain ⟨kind, deferred, span?⟩ := blk
      obtain ⟨kind', deferred', span?'⟩ := blk'
      cases hkind
      cases hspan
      cases hflag
      rfl
  obtain ⟨name, ops, owners, blocks, edges, bound⟩ := g
  obtain ⟨name', ops', owners', blocks', edges', bound'⟩ := g'
  cases hblocks
  cases h.name_eq
  cases h.ops_eq
  cases h.alike.owners
  cases h.alike.edges
  cases h.alike.bound
  rfl

private theorem eq_withFlags (h : Flagged g g') : g' = g.withFlags g'.isDeferred := by
  refine ((flagged_withFlags g _).symm.trans h).eq_of_flags fun b hb ↦ ?_
  rw [(flagged_withFlags g _).alike.blockCount_eq] at hb
  obtain ⟨blk, hblk⟩ := exists_block hb
  have hblk' : (g.withFlags g'.isDeferred).blocks[b]? =
      some { blk with deferred := g'.isDeferred b } := by
    rw [withFlags, Array.getElem?_mapIdx, hblk, Option.map_some]
  rw [isDeferred_of_block hblk']

theorem isLoop_eq (h : Flagged g g') {blk blk' : Block} (hblk : g.blocks[b]? = some blk)
    (hblk' : g'.blocks[b]? = some blk') : blk'.isLoop = blk.isLoop := by
  obtain ⟨blk₀, hblk₀, hkind, -⟩ := h.block hblk'
  rw [hblk, Option.some.injEq] at hblk₀
  rw [Block.isLoop, Block.isLoop, hkind, hblk₀]

theorem hintedAway_eq (h : Flagged g g') (p b : BlockIndex) :
    g'.hintedAway p b = g.hintedAway p b := by
  rw [hintedAway, hintedAway, h.alike.terminator_eq, h.ops_eq]

end Flagged

/-! ## The sweep

A sweep settles the blocks in their order, and a settled block stays settled, since the blocks that
it looks at come before it. So one sweep settles all, and any two ways to settle all flags agree. -/

/-- What leads to a block that is no loop header comes before it. -/
def PredecessorsFirst (g : Graph) : Prop :=
  ∀ {b : BlockIndex} {blk : Block}, g.blocks[b]? = some blk → blk.isLoop = false →
    ∀ p ∈ g.predecessors b, p < b

/-- The flag of block `b` agrees with the flags that it follows from. -/
def Settled (g : Graph) (b : BlockIndex) : Prop :=
  ∀ {blk : Block}, g.blocks[b]? = some blk → g.isDeferred b = g.deferral b blk

theorem Flagged.predecessorsFirst (h : Flagged g g') (hfirst : g.PredecessorsFirst) :
    g'.PredecessorsFirst := by
  intro b blk' hblk' hloop
  obtain ⟨blk, hblk, -, -⟩ := h.block hblk'
  rw [h.isLoop_eq hblk hblk'] at hloop
  rw [h.alike.predecessors_eq]
  exact hfirst hblk hloop

/-- The flag of a block follows from the flags of the blocks before it. -/
theorem Flagged.deferral_eq (h : Flagged g g') (hfirst : g.PredecessorsFirst) {blk blk' : Block}
    (hblk : g.blocks[b]? = some blk) (hblk' : g'.blocks[b]? = some blk')
    (hflags : ∀ p < b, g'.isDeferred p = g.isDeferred p) :
    g'.deferral b blk' = g.deferral b blk := by
  simp only [deferral, h.isLoop_eq hblk hblk', h.alike.predecessors_eq, h.hintedAway_eq]
  by_cases hb : b = 0
  · simp only [hb, if_true]
  · simp only [hb, if_false]
    split
    · -- a loop header looks for a block before it
      cases hfind : (g.predecessors b).find? (· < b) with
      | none => rfl
      | some p => exact hflags p (by simpa using List.find?_some hfind)
    · rename_i hplain
      have hpreds : ∀ p ∈ g.predecessors b, g'.isDeferred p = g.isDeferred p := fun p hp ↦
        hflags p (hfirst hblk (Bool.not_eq_true _ ▸ hplain) p hp)
      have hall : (g.predecessors b).all g'.isDeferred = (g.predecessors b).all g.isDeferred := by
        rw [Bool.eq_iff_iff, List.all_eq_true, List.all_eq_true]
        exact forall₂_congr fun p hp ↦ by rw [hpreds p hp]
      split
      · rename_i p hp
        rw [hpreds p (by simp [hp])]
      · exact hall

private theorem isDeferred_deferBlock_of_ne (hne : c ≠ b) :
    (g.deferBlock b).isDeferred c = g.isDeferred c := by
  rw [isDeferred, deferBlock, Array.getElem?_modify, if_neg (Ne.symm hne), isDeferred]

private theorem isDeferred_deferBlock_self {blk : Block} (hblk : g.blocks[b]? = some blk) :
    (g.deferBlock b).isDeferred b = g.deferral b blk := by
  rw [isDeferred, deferBlock, Array.getElem?_modify, if_pos rfl, hblk]
  rfl

private theorem settled_deferBlock (hfirst : g.PredecessorsFirst) {k : Nat} (hk : k < g.blockCount)
    (h : ∀ b < k, g.Settled b) : ∀ b < k + 1, (g.deferBlock k).Settled b := by
  intro b hb blk' hblk'
  have hflagged : Flagged g (g.deferBlock k) := (Flagged.refl g).deferBlock k
  obtain ⟨blk, hblk, -, -⟩ := hflagged.block hblk'
  have hbefore : (g.deferBlock k).deferral b blk' = g.deferral b blk :=
    hflagged.deferral_eq hfirst hblk hblk' fun p hp ↦
      isDeferred_deferBlock_of_ne (Nat.ne_of_lt (Nat.lt_of_lt_of_le hp (Nat.le_of_lt_succ hb)))
  rw [hbefore]
  rcases Nat.lt_succ_iff_lt_or_eq.mp hb with hlt | rfl
  · rw [isDeferred_deferBlock_of_ne (Nat.ne_of_lt hlt), h b hlt hblk]
  · exact isDeferred_deferBlock_self hblk

private theorem settled_foldl_deferBlock (hfirst : g.PredecessorsFirst) :
    ∀ k ≤ g.blockCount, Flagged g ((List.range k).foldl deferBlock g) ∧
      ∀ b < k, ((List.range k).foldl deferBlock g).Settled b := by
  intro k
  induction k with
  | zero => exact fun _ ↦ ⟨.refl g, fun _ hb ↦ absurd hb (Nat.not_lt_zero _)⟩
  | succ k ih =>
    intro hk
    obtain ⟨hflagged, hsettled⟩ := ih (Nat.le_of_succ_le hk)
    rw [List.range_succ, List.foldl_append, List.foldl_cons, List.foldl_nil]
    refine ⟨hflagged.deferBlock k, settled_deferBlock (hflagged.predecessorsFirst hfirst) ?_
      hsettled⟩
    rw [hflagged.alike.blockCount_eq]
    exact hk

theorem settled_propagateDeferred (hfirst : g.PredecessorsFirst) (hb : b < g.blockCount) :
    g.propagateDeferred.Settled b :=
  (settled_foldl_deferBlock hfirst g.blockCount (Nat.le_refl _)).2 b hb

private theorem Flagged.isDeferred_eq (h : Flagged s s') (hfirst : s.PredecessorsFirst)
    (hs : ∀ b < s.blockCount, s.Settled b) (hs' : ∀ b < s.blockCount, s'.Settled b) :
    ∀ b < s.blockCount, s'.isDeferred b = s.isDeferred b := by
  intro b
  induction b using Nat.strong_induction_on with
  | _ b ih =>
    intro hb
    obtain ⟨blk', hblk'⟩ := exists_block (h.alike.blockCount_eq ▸ hb)
    obtain ⟨blk, hblk⟩ := exists_block hb
    rw [hs' b hb hblk', hs b hb hblk]
    exact h.deferral_eq hfirst hblk hblk' fun p hp ↦ ih p hp (Nat.lt_trans hp hb)

private theorem propagateDeferred_withFlags (hfirst : g.PredecessorsFirst) (f : BlockIndex → Bool) :
    (g.withFlags f).propagateDeferred = g.propagateDeferred := by
  have hflags := flagged_withFlags g f
  have hswept := flagged_propagateDeferred g
  have hswept' := flagged_propagateDeferred (g.withFlags f)
  have hcount : g.propagateDeferred.blockCount = g.blockCount := hswept.alike.blockCount_eq
  have hboth := (hswept.symm.trans hflags).trans hswept'
  refine hboth.eq_of_flags (hboth.isDeferred_eq (hswept.predecessorsFirst hfirst) ?_ ?_)
  · exact fun b hb ↦ settled_propagateDeferred hfirst (hcount ▸ hb)
  · exact fun b hb ↦ settled_propagateDeferred (hflags.predecessorsFirst hfirst)
      (hflags.alike.blockCount_eq ▸ hcount ▸ hb)

/-! ## Cold edges

An edge is cold if it is the only one into its target, the target is no loop header, and the branch
that it comes from is hinted toward its other side. `hintedAway` tests this on the terminator, and
this is what the test comes to. -/

/-- The edge from `p` to `c` is cold: `c` is no loop header and has one predecessor edge, and `p`
ends in a branch with distinct targets that is hinted toward the target other than `c`. -/
structure ColdArc (g : Graph) (p c : BlockIndex) : Prop where
  not_loop : ∀ {blk : Block}, g.blocks[c]? = some blk → blk.isLoop = false
  only : (g.predecessors c).length = 1
  away : ∃ i inputs t f hint, g.terminator? p = some i ∧
    g.ops[i]? = some ⟨.branch t f hint, inputs⟩ ∧ t ≠ f ∧
      (hint = .towardTrue ∧ f = c ∨ hint = .towardFalse ∧ t = c)

/-- A walk uses a cold edge. -/
def UsesColdArc (g : Graph) (w : List BlockIndex) : Prop :=
  ∃ p c, [p, c] <:+: w ∧ g.ColdArc p c

/-- Each loop header is entered from a single block before it. -/
def EnteredOnce (g : Graph) : Prop :=
  ∀ {b : BlockIndex} {blk : Block}, g.blocks[b]? = some blk → blk.isLoop = true →
    ∃! p, p ∈ g.predecessors b ∧ p < b

theorem enteredOnce_of_only_header {h : BlockIndex}
    (hheader : ∀ b < g.blockCount, ∀ blk ∈ g.blocks[b]?, blk.isLoop = true → b = h)
    (hp : p ∈ g.predecessors h ∧ p < h) (hpreds : ∀ q ∈ g.predecessors h, q < h → q = p) :
    g.EnteredOnce := by
  intro b blk hblk hloop
  obtain rfl := hheader b (lt_blockCount hblk) blk hblk hloop
  exact ⟨p, hp, fun q hq ↦ hpreds q hq.1 hq.2⟩

theorem hintedAway_iff : g.hintedAway p c = true ↔
    ∃ i inputs t f hint, g.terminator? p = some i ∧
      g.ops[i]? = some ⟨.branch t f hint, inputs⟩ ∧ t ≠ f ∧
        (hint = .towardTrue ∧ f = c ∨ hint = .towardFalse ∧ t = c) := by
  rw [hintedAway]
  constructor
  · intro h
    split at h
    · rename_i t f hint inputs hop
      obtain ⟨i, hi, hop⟩ := Option.bind_eq_some_iff.mp hop
      refine ⟨i, inputs, t, f, hint, hi, hop, ?_⟩
      rw [Bool.and_eq_true, decide_eq_true_iff] at h
      refine ⟨h.1, ?_⟩
      cases hint with
      | towardTrue => exact Or.inl ⟨rfl, of_decide_eq_true h.2⟩
      | towardFalse => exact Or.inr ⟨rfl, of_decide_eq_true h.2⟩
      | _ => cases h.2
    · cases h
  · rintro ⟨i, inputs, t, f, hint, hi, hop, hne, ⟨rfl, rfl⟩ | ⟨rfl, rfl⟩⟩
    · simp [hi, hop, hne]
    · simp [hi, hop, hne]

private theorem not_usesColdArc {w : List BlockIndex} :
    ¬g.UsesColdArc w ↔ w.IsChain fun p c ↦ ¬g.ColdArc p c := by
  rw [List.isChain_iff_forall_rel_of_append_cons_cons, UsesColdArc]
  push Not
  constructor
  · rintro h p c w₁ w₂ rfl
    exact h p c ⟨w₁, w₂, by simp⟩
  · rintro h p c ⟨w₁, w₂, heq⟩
    exact @h p c w₁ w₂ (by simpa using heq.symm)

/-- Every walk to a block uses a cold edge iff no path of other edges leads there. -/
theorem forall_walk_usesColdArc {r : BlockIndex → BlockIndex → Prop} :
    (∀ w : List BlockIndex, w.head? = some 0 → w.getLast? = some b → w.IsChain r →
      g.UsesColdArc w) ↔
    ¬Relation.ReflTransGen (fun p c ↦ r p c ∧ ¬g.ColdArc p c) 0 b := by
  constructor
  · intro h hpath
    obtain ⟨w, hchain, hlast⟩ := List.exists_isChain_cons_of_relationReflTransGen hpath
    refine not_usesColdArc.mpr (hchain.imp fun _ _ hpc ↦ hpc.2) (h (0 :: w) rfl ?_
      (hchain.imp fun _ _ hpc ↦ hpc.1))
    rw [List.getLast?_eq_some_getLast (List.cons_ne_nil 0 w), hlast]
  · intro h w hhead hlast hchain
    by_contra hwarm
    have hboth : w.IsChain fun p c ↦ r p c ∧ ¬g.ColdArc p c := by
      have hwarm := not_usesColdArc.mp hwarm
      rw [List.isChain_iff_forall_rel_of_append_cons_cons] at hchain hwarm ⊢
      exact fun _ _ _ _ heq ↦ ⟨hchain heq, hwarm heq⟩
    obtain ⟨w, rfl⟩ := List.head?_eq_some_iff.mp hhead
    refine h ?_
    rw [List.getLast?_eq_some_getLast (List.cons_ne_nil 0 w), Option.some.injEq] at hlast
    exact hlast ▸ List.relationReflTransGen_of_exists_isChain_cons w hboth rfl

/-! ## Blocks that are not deferred

The entry is never deferred. Any other block is warm exactly if a block before it is warm and leads
there over an edge that is not cold. -/

private theorem deferral_eq_false_iff {blk : Block} : g.deferral b blk = false ↔
    b = 0 ∨
    blk.isLoop = true ∧
      (∀ p, (g.predecessors b).find? (· < b) = some p → g.isDeferred p = false) ∨
    blk.isLoop = false ∧ ∃ p ∈ g.predecessors b, g.isDeferred p = false ∧
      ((g.predecessors b).length = 1 → g.hintedAway p b = false) := by
  rw [deferral]
  by_cases hb : b = 0
  · simp [hb]
  · cases hloop : blk.isLoop with
    | true => cases hfind : (g.predecessors b).find? (· < b) <;> simp [hb]
    | false =>
      match hpreds : g.predecessors b with
      | [] => simp [hb]
      | [p] => simp [hb]
      | p :: q :: preds =>
        have hlen : (p :: q :: preds).length ≠ 1 := by simp
        simp only [hb, if_false, Bool.false_eq_true, List.all_eq_false, Bool.not_eq_true, hlen,
          false_imp_iff, and_true, false_and, false_or, true_and]

theorem predecessorsFirst (hg : g.Sound) (hfit : g.Fit) (hord : g.InReversePostorder) :
    g.PredecessorsFirst := by
  intro b blk hblk hloop p hp
  have harc : g.Arc p b := hg.mem_predecessors_iff.mp hp
  by_contra hle
  have hback := (hord p b harc).mpr (Nat.not_lt.mp hle)
  rw [(hfit.loopsMarked hblk).mpr ⟨p, hback⟩] at hloop
  cases hloop

/-- What the sweep leaves behind at one block. -/
theorem isDeferred_propagateDeferred (hfirst : g.PredecessorsFirst) {blk : Block}
    (hblk : g.blocks[b]? = some blk) : g.propagateDeferred.isDeferred b = false ↔
    b = 0 ∨
    blk.isLoop = true ∧ (∀ p, (g.predecessors b).find? (· < b) = some p →
      g.propagateDeferred.isDeferred p = false) ∨
    blk.isLoop = false ∧ ∃ p ∈ g.predecessors b, g.propagateDeferred.isDeferred p = false ∧
      ((g.predecessors b).length = 1 → g.hintedAway p b = false) := by
  have hswept := flagged_propagateDeferred g
  obtain ⟨blk', hblk'⟩ := exists_block (hswept.alike.blockCount_eq ▸ lt_blockCount hblk)
  rw [settled_propagateDeferred hfirst (lt_blockCount hblk) hblk', deferral_eq_false_iff,
    hswept.isLoop_eq hblk hblk', hswept.alike.predecessors_eq]
  simp only [hswept.hintedAway_eq]

theorem isDeferred_entry (hfirst : g.PredecessorsFirst) (hpos : 0 < g.blockCount) :
    g.propagateDeferred.isDeferred 0 = false := by
  obtain ⟨blk, hblk⟩ := exists_block hpos
  exact (isDeferred_propagateDeferred hfirst hblk).mpr (Or.inl rfl)

private theorem not_deferred_of_arc (hg : g.Sound) (hfirst : g.PredecessorsFirst)
    (honce : g.EnteredOnce) (harc : g.Arc p b) (hlt : p < b) (hwarm : ¬g.ColdArc p b)
    (hp : g.propagateDeferred.isDeferred p = false) :
    g.propagateDeferred.isDeferred b = false := by
  obtain ⟨blk, hblk⟩ := exists_block (hg.arc_lt harc).2
  have hmem : p ∈ g.predecessors b := hg.mem_predecessors_iff.mpr harc
  refine (isDeferred_propagateDeferred hfirst hblk).mpr (Or.inr ?_)
  cases hloop : blk.isLoop with
  | true =>
    refine Or.inl ⟨rfl, fun q hq ↦ ?_⟩
    have hbefore : q < b := by simpa using List.find?_some hq
    have heq : q = p :=
      (honce hblk hloop).unique ⟨List.mem_of_find?_eq_some hq, hbefore⟩ ⟨hmem, hlt⟩
    rw [heq]
    exact hp
  | false =>
    refine Or.inr ⟨rfl, p, hmem, hp, fun hlen ↦ ?_⟩
    by_contra haway
    rw [Bool.not_eq_false, hintedAway_iff] at haway
    refine hwarm ⟨fun {blk'} hblk' ↦ ?_, hlen, haway⟩
    rw [hblk, Option.some.injEq] at hblk'
    exact hblk' ▸ hloop

private theorem exists_arc_of_not_deferred (hg : g.Sound) (hfit : g.Fit)
    (hord : g.InReversePostorder) (honce : g.EnteredOnce) (hb : b < g.blockCount) (hne : b ≠ 0)
    (h : g.propagateDeferred.isDeferred b = false) :
    ∃ p < b, g.ForwardArc p b ∧ ¬g.ColdArc p b ∧ g.propagateDeferred.isDeferred p = false := by
  have hfirst : g.PredecessorsFirst := predecessorsFirst hg hfit hord
  have hforward : ∀ {q}, q ∈ g.predecessors b → q < b → g.ForwardArc q b := fun {q} hq hlt ↦ by
    have harc : g.Arc q b := hg.mem_predecessors_iff.mp hq
    exact ⟨harc, fun hback ↦ Nat.not_le.mpr hlt ((hord q b harc).mp hback)⟩
  obtain ⟨blk, hblk⟩ := exists_block hb
  rcases (isDeferred_propagateDeferred hfirst hblk).mp h with
    hzero | ⟨hloop, hfound⟩ | ⟨hloop, p, hp, hflag, haway⟩
  · exact absurd hzero hne
  · obtain ⟨p, ⟨hp, hlt⟩, -⟩ := honce hblk hloop
    cases hfind : (g.predecessors b).find? (· < b) with
    | none => simpa [hlt] using List.find?_eq_none.mp hfind p hp
    | some q =>
      have hbefore : q < b := by simpa using List.find?_some hfind
      refine ⟨q, hbefore, hforward (List.mem_of_find?_eq_some hfind) hbefore, fun hcold ↦ ?_,
        hfound q hfind⟩
      rw [hcold.not_loop hblk] at hloop
      cases hloop
  · have hlt := hfirst hblk hloop p hp
    refine ⟨p, hlt, hforward hp hlt, fun hcold ↦ ?_, hflag⟩
    have hno := haway hcold.only
    rw [hintedAway_iff.mpr hcold.away] at hno
    cases hno

/-! ## Paths without cold edges

By induction along the path in one direction and along the order of the blocks in the other. The two
samples are a loop that is cold, and one that is entered past its header on a warm path and deferred
all the same. -/

private theorem not_deferred_iff_path (hg : g.Sound) (hfit : g.Fit) (hord : g.InReversePostorder)
    (honce : g.EnteredOnce) (hb : b < g.blockCount) :
    g.propagateDeferred.isDeferred b = false ↔
      Relation.ReflTransGen (fun p c ↦ g.ForwardArc p c ∧ ¬g.ColdArc p c) 0 b := by
  have hfirst : g.PredecessorsFirst := predecessorsFirst hg hfit hord
  constructor
  · induction b using Nat.strong_induction_on with
    | _ b ih =>
      intro h
      by_cases hzero : b = 0
      · exact hzero ▸ .refl
      · obtain ⟨p, hlt, hforward, hwarm, hp⟩ :=
          exists_arc_of_not_deferred hg hfit hord honce hb hzero h
        exact (ih p hlt (Nat.lt_trans hlt hb) hp).tail ⟨hforward, hwarm⟩
  · intro hpath
    clear hb
    induction hpath with
    | refl => exact isDeferred_entry hfirst hfit.wellFormed.pos
    | @tail p c _ hpc ih =>
      obtain ⟨⟨harc, hforward⟩, hwarm⟩ := hpc
      have hlt : p < c := Nat.not_le.mp fun hle ↦ hforward ((hord p c harc).mpr hle)
      exact not_deferred_of_arc hg hfirst honce harc hlt hwarm ih

private theorem Dominates.path_to {r : BlockIndex → BlockIndex → Prop}
    (hr : ∀ a b, r a b → g.Arc a b) {d : BlockIndex} (h : g.Dominates d b)
    (hpath : Relation.ReflTransGen r 0 b) : Relation.ReflTransGen r 0 d := by
  obtain ⟨w, hchain, hlast⟩ := List.exists_isChain_cons_of_relationReflTransGen hpath
  have hmem : d ∈ 0 :: w := by
    refine h (0 :: w) rfl ?_ (hchain.imp hr)
    rw [List.getLast?_eq_some_getLast (List.cons_ne_nil 0 w), hlast]
  exact hchain.induction (Relation.ReflTransGen r 0) (0 :: w) (fun _ _ hab ha ↦ ha.tail hab)
    (fun _ ↦ .refl) d hmem

/-- In a reducible graph a path can do without its backedges, which lead to blocks that it has
passed before. -/
private theorem path_forward (hred : g.Reducible) {q : BlockIndex → BlockIndex → Prop}
    (hpath : Relation.ReflTransGen (fun p c ↦ g.Arc p c ∧ q p c) 0 b) :
    Relation.ReflTransGen (fun p c ↦ g.ForwardArc p c ∧ q p c) 0 b := by
  induction hpath with
  | refl => exact .refl
  | @tail p c _ hpc ih =>
    by_cases hback : ⟨p, c⟩ ∈ g.backedges
    · exact (hred ⟨p, c⟩ hback).path_to (fun _ _ h ↦ h.1.1) ih
    · exact ih.tail ⟨⟨hpc.1, hback⟩, hpc.2⟩

/-- The sweep sets nothing but the flags, and sets them alike whatever they were; the entry is never
deferred. If each loop header is entered once, the deferred blocks are those that every path without
backedges comes to over a cold edge, and if all headers dominate their backedges, those that every
path comes to over one. -/
theorem deferred_iff_cold_paths {g : Graph} (hbuilt : g.Built) (hfit : g.problems true = []) :
    (∀ f, (g.withFlags f).propagateDeferred = g.propagateDeferred) ∧
    g.propagateDeferred.propagateDeferred = g.propagateDeferred ∧
    (∃ f, g.propagateDeferred = g.withFlags f) ∧
    g.propagateDeferred.isDeferred 0 = false ∧
    (g.EnteredOnce → ∀ b < g.blockCount,
      (g.propagateDeferred.isDeferred b = true ↔
        ∀ w : List BlockIndex, w.head? = some 0 → w.getLast? = some b →
          w.IsChain (fun p c ↦ g.Arc p c ∧ ⟨p, c⟩ ∉ g.backedges) → g.UsesColdArc w) ∧
      ((∀ e ∈ g.backedges, g.Dominates e.header e.source) →
        (g.propagateDeferred.isDeferred b = true ↔
          ∀ w : List BlockIndex, w.head? = some 0 → w.getLast? = some b → w.IsChain g.Arc →
            g.UsesColdArc w))) := by
  have hg := hbuilt.sound
  obtain ⟨hf, hord⟩ := (problems_eq_nil hg true).mp hfit
  have hfirst : g.PredecessorsFirst := predecessorsFirst hg hf (hord rfl)
  have hsame := propagateDeferred_withFlags hfirst
  have hflags := (flagged_propagateDeferred g).eq_withFlags
  refine ⟨hsame, (congrArg propagateDeferred hflags).trans (hsame _), ⟨_, hflags⟩,
    isDeferred_entry hfirst hf.wellFormed.pos, fun honce b hb ↦ ?_⟩
  have hpath := not_deferred_iff_path hg hf (hord rfl) honce hb
  rw [forall_walk_usesColdArc, forall_walk_usesColdArc, ← Bool.not_eq_false, hpath]
  refine ⟨Iff.rfl, fun hred ↦ not_congr ⟨fun h ↦ ?_, path_forward hred⟩⟩
  exact Relation.ReflTransGen.mono (fun _ _ hpc ↦ ⟨hpc.1.1, hpc.2⟩) _ _ h

/-- A loop on the cold side of a branch. -/
def coldLoopBlocks : List (BlockKind × List Operation) :=
  [(.entry, [.pure .empty [], .branch 0 1 4 .towardFalse]),
    (.plain, [.goto 2]),
    (.loop, [.pure .empty [], .branch 3 3 5 .unhinted]),
    (.plain, [.goto 2]),
    (.plain, [.ret []]),
    (.plain, [.ret []])]

/-- The graph of a loop on the cold side of a branch. -/
def coldLoop : Graph := (ofBlocks coldLoopBlocks).toOption.getD (.empty .empty)

theorem deferred_iff_cold_paths_coldLoop :
    (∀ f, (coldLoop.withFlags f).propagateDeferred = coldLoop.propagateDeferred) ∧
    (∀ w : List BlockIndex, w.head? = some 0 → w.getLast? = some 3 → w.IsChain coldLoop.Arc →
      coldLoop.UsesColdArc w) ∧
    ¬∀ w : List BlockIndex, w.head? = some 0 → w.getLast? = some 4 → w.IsChain coldLoop.Arc →
      coldLoop.UsesColdArc w := by
  have hbuilt : coldLoop.Built := ofBlocks_built (show ofBlocks coldLoopBlocks = _ from rfl)
  have honce : coldLoop.EnteredOnce :=
    enteredOnce_of_only_header (h := 2) (p := 1) (by decide) (by decide) (by decide)
  have hred : ∀ e ∈ coldLoop.backedges, coldLoop.Dominates e.header e.source := by
    intro e he
    rw [show coldLoop.backedges = [⟨3, 2⟩] from rfl, List.mem_singleton] at he
    subst he
    refine dominates_of_arc (by decide) fun p hp ↦ ?_
    have hmem := hbuilt.sound.mem_predecessors_iff.mpr hp
    rwa [show coldLoop.predecessors 3 = [2] from rfl, List.mem_singleton] at hmem
  obtain ⟨hsame, -, -, -, hpaths⟩ := deferred_iff_cold_paths hbuilt (by decide)
  refine ⟨hsame, ((hpaths honce 3 (by decide)).2 hred).mp (by decide), fun h ↦ ?_⟩
  exact absurd (((hpaths honce 4 (by decide)).2 hred).mpr h) (by decide)

/-- A loop on the cold side of a branch which the other side enters past its header. -/
def sideEntryBlocks : List (BlockKind × List Operation) :=
  [(.entry, [.pure "cond".toUTF8 [], .branch 0 1 3 .towardFalse]),
    (.plain, [.goto 2]),
    (.loop, [.pure "cond".toUTF8 [], .branch 3 3 4 .unhinted]),
    (.merge, [.goto 2]),
    (.plain, [.ret []])]

/-- The graph of a loop that is entered past its header. -/
def sideEntry : Graph := (ofBlocks sideEntryBlocks).toOption.getD (.empty .empty)

/-- Where a loop can be entered past its header, the header is deferred although a path comes to it
over no cold edge. -/
theorem sideEntry_deferred_on_warm_path :
    sideEntry.Built ∧ sideEntry.problems true = [] ∧ sideEntry.EnteredOnce ∧
      sideEntry.propagateDeferred.isDeferred 2 = true ∧
      ¬∀ w : List BlockIndex, w.head? = some 0 → w.getLast? = some 2 → w.IsChain sideEntry.Arc →
        sideEntry.UsesColdArc w := by
  refine ⟨ofBlocks_built (show ofBlocks sideEntryBlocks = _ from rfl), by decide,
    enteredOnce_of_only_header (h := 2) (p := 1) (by decide) (by decide) (by decide), by decide, ?_⟩
  rw [forall_walk_usesColdArc, not_not]
  have hmerge : ¬sideEntry.ColdArc 0 3 := fun h ↦ absurd h.only (by decide)
  have hloop : ¬sideEntry.ColdArc 3 2 := fun h ↦
    absurd (h.not_loop (show sideEntry.blocks[2]? = some _ from rfl)) (by decide)
  exact (Relation.ReflTransGen.single ⟨by decide, hmerge⟩).tail ⟨by decide, hloop⟩

end Graph

end Flowgraph
