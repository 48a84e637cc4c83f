import Flowgraph.Proofs.Order.Computation

/-!
# Backedges and cycles

Without its backedges, what the entry reaches of a graph has no cycle, every backedge closes one,
and an edge to a dominator of its source is a backedge. A numberer finds the backedges in a loop
over an explicit stack.

## Searches that agree

Which edges are backedges depends on the order in which the search takes the edges of a block. In a
reducible graph it does not: there the backedges are the edges to dominators. Another search over
the same edges comes to the source of a backedge on a walk that visits no block twice, with the
header on it. Such a walk never goes to a dominator of a block that it has left behind, so that it
takes forward edges only. The cycle from the header along the walk and back has to hold a backedge,
and only the last edge of the cycle is left for that.
-/

namespace Flowgraph

namespace Graph

variable {g g' : Graph} {u v b h : BlockIndex} {w : List BlockIndex}

/-! ## Walks without repetition

A walk from the entry that visits no block twice has never been at a block that comes next, so that
it cannot go to a dominator of a block on it other than along the way it came. -/

/-- The walk `w` leads from the entry to block `b` and visits no block twice. -/
structure SimpleWalk (g : Graph) (w : List BlockIndex) (b : BlockIndex) : Prop where
  head_eq : w.head? = some 0
  last_eq : w.getLast? = some b
  chain : w.IsChain g.Arc
  nodup : w.Nodup

private theorem SimpleWalk.entry (g : Graph) : g.SimpleWalk [0] 0 :=
  ⟨rfl, rfl, List.isChain_singleton 0, List.nodup_singleton 0⟩

private theorem SimpleWalk.concat (h : g.SimpleWalk w u) (harc : g.Arc u v) (hv : v ∉ w) :
    g.SimpleWalk (w ++ [v]) v := by
  obtain ⟨hhead, hlast, hchain⟩ := walk_concat h.head_eq h.last_eq h.chain harc
  exact ⟨hhead, hlast, hchain, List.nodup_append_comm.mp (List.nodup_cons.mpr ⟨hv, h.nodup⟩)⟩

/-- The rest of a walk leads from each of its blocks to its end. -/
theorem path_of_mem_walk {r : BlockIndex → BlockIndex → Prop} (hlast : w.getLast? = some b)
    (hchain : w.IsChain r) (hh : h ∈ w) : Relation.ReflTransGen r h b := by
  obtain ⟨w₁, w₂, rfl⟩ := List.append_of_mem hh
  have hrest := List.relationReflTransGen_of_exists_isChain (h :: w₂) hchain.right_of_append
    (List.cons_ne_nil h w₂)
  rw [List.getLast?_append_of_ne_nil _ (List.cons_ne_nil h w₂),
    List.getLast?_eq_some_getLast (List.cons_ne_nil h w₂), Option.some.injEq] at hlast
  rwa [hlast, List.head_cons] at hrest

theorem SimpleWalk.reachable (hw : g.SimpleWalk w b) : g.Reachable b :=
  path_of_mem_walk hw.last_eq hw.chain (List.mem_of_head? hw.head_eq)

/-- A simple walk takes no edge to a dominator of its source: it has visited that block before, on
its way to the source. -/
theorem SimpleWalk.not_dominates (hw : g.SimpleWalk w b) :
    w.IsChain fun u v ↦ g.Arc u v ∧ ¬g.Dominates v u := by
  rw [List.isChain_iff_forall_rel_of_append_cons_cons]
  rintro u v w₁ w₂ rfl
  have harc : g.Arc u v :=
    List.isChain_iff_forall_rel_of_append_cons_cons.mp hw.chain rfl
  refine ⟨harc, fun hdom ↦ ?_⟩
  have hsplit : w₁ ++ u :: v :: w₂ = (w₁ ++ [u]) ++ v :: w₂ := by simp
  have hhead := hw.head_eq
  have hchain := hw.chain
  have hnodup := hw.nodup
  rw [hsplit] at hhead hchain hnodup
  rw [List.head?_append_of_ne_nil _ (by simp)] at hhead
  have hv : v ∈ w₁ ++ [u] :=
    hdom (w₁ ++ [u]) hhead List.getLast?_concat hchain.left_of_append
  exact (List.nodup_append.mp hnodup).2.2 v hv v List.mem_cons_self rfl

private theorem SimpleWalk.forward (hred : g.Reducible) (hw : g.SimpleWalk w b) :
    w.IsChain g.ForwardArc :=
  hw.not_dominates.imp fun _ _ h ↦ ⟨h.1, fun hback ↦ h.2 (hred _ hback)⟩

end Graph

/-! ## Backedges lead back on a simple walk

Whatever edges a search takes first, a backedge is noted when its target is active, which is to say
on the walk to its source. -/

namespace Discovery

variable {g : Graph} {path : List BlockIndex} {s : Discovery} {b c : BlockIndex}

/-- Every backedge leads back to a block on a simple walk to its source. -/
def Returns (g : Graph) (s : Discovery) : Prop :=
  ∀ e ∈ s.backedges.toList, ∃ w, g.SimpleWalk w e.source ∧ e.header ∈ w

private theorem Traced.simpleWalk_next (ht : Traced g (b :: path) s)
    (hwalk : g.SimpleWalk (b :: path).reverse b) (hc : s.progress[c]? = some .fresh)
    (harc : g.Arc b c) : g.SimpleWalk (c :: b :: path).reverse c := by
  rw [List.reverse_cons]
  exact hwalk.concat harc fun hmem ↦ ht.not_mem_of_fresh hc (List.mem_append_left _ hmem)

/-- Backedges are noted where an edge leads to an active block, which the walk to the block under
visit passes. -/
private theorem foldl_followEdge_returns (hg : g.Sound) {depth : Nat}
    (hwalk : g.SimpleWalk (b :: path).reverse b)
    (hvisit : ∀ {c : BlockIndex} {s : Discovery}, Traced g (b :: path) s →
      s.progress[c]? = some .fresh → g.blockCount ≤ depth + ((b :: path).length + s.order.length) →
      g.Arc b c → Returns g s → Returns g (visit g depth c s)) :
    ∀ {cs : List BlockIndex} {s : Discovery}, Traced g (b :: path) s → (∀ c ∈ cs, g.Arc b c) →
      g.blockCount ≤ depth + ((b :: path).length + s.order.length) → Returns g s →
      Returns g (cs.foldl (followEdge g depth b) s) := by
  intro cs
  induction cs with
  | nil => exact fun _ _ _ hs ↦ hs
  | cons c cs ih =>
    intro s ht hcs hdepth hs
    rw [List.forall_mem_cons] at hcs
    obtain ⟨ht', hgrows⟩ := followEdge_traced hg ht hdepth hcs.1
    have hlen := hgrows.order.length_le
    refine ih ht' hcs.2 (by omega) ?_
    rw [followEdge]
    split
    · rename_i hfresh
      exact hvisit ht hfresh hdepth hcs.1 hs
    · rename_i hactive
      intro e he
      rw [Array.toList_push, List.mem_append, List.mem_singleton] at he
      rcases he with he | rfl
      · exact hs e he
      -- an active block lies on the path, and hence on the walk
      · exact ⟨_, hwalk, List.mem_reverse.mpr ((ht.active_iff c).mp hactive)⟩
    · exact hs

private theorem visit_returns (hg : g.Sound) : ∀ {depth : Nat} {b : BlockIndex}
    {path : List BlockIndex} {s : Discovery}, Traced g path s → s.progress[b]? = some .fresh →
    g.blockCount ≤ depth + (path.length + s.order.length) → (b = 0 ∨ ∃ p ∈ path, g.Arc p b) →
    g.SimpleWalk (b :: path).reverse b → Returns g s → Returns g (visit g depth b s) := by
  intro depth
  induction depth with
  | zero => exact fun _ _ _ _ _ hs ↦ hs
  | succ depth ih =>
    intro b path s ht hb hdepth hparent hwalk hs
    refine foldl_followEdge_returns hg (s := s.mark b .active) hwalk ?_ (ht.enter hb hparent)
      (fun c hc ↦ hc) ?_ hs
    · intro c s ht hfresh hdepth harc hs
      exact ih ht hfresh hdepth (Or.inr ⟨b, by simp, harc⟩)
        (ht.simpleWalk_next hwalk hfresh harc) hs
    · change g.blockCount ≤ depth + ((b :: path).length + s.order.length)
      rw [List.length_cons]
      omega

end Discovery

namespace Graph

variable {g g' : Graph} {u v b : BlockIndex}

theorem discovery_returns (hg : g.Sound) : Discovery.Returns g g.discovery := by
  have hstart : Discovery.Returns g (.start g.blockCount) := fun e he ↦ nomatch he
  rw [discovery]
  split
  · exact hstart
  · rename_i hpos
    refine Discovery.visit_returns hg (Discovery.traced_start g) ?_ (by simp) (Or.inl rfl)
      (SimpleWalk.entry g) hstart
    rw [Discovery.start, Array.getElem?_replicate, if_pos (Nat.pos_of_ne_zero hpos)]

/-! ## Cycles

Forward edges lead forward in the order of the search, so that no cycle is made of them alone. A
backedge closes a cycle with the path between its ends. -/

theorem mem_discovery_of_reachable (hg : g.Sound) (hu : g.Reachable u) (harc : g.Arc u v) :
    u ∈ g.discovery.order :=
  (mem_discovery_iff hg (Nat.zero_lt_of_lt (hg.arc_lt harc).1)).mpr hu

/-- Forward edges close no cycle, as the position in the order of the search grows along them. -/
theorem not_forward_cycle (hg : g.Sound) (hb : g.Reachable b) :
    ¬Relation.TransGen g.ForwardArc b b := by
  intro hcycle
  obtain ⟨c, harc, hpath⟩ := Relation.TransGen.head'_iff.mp hcycle
  have hmem := mem_discovery_of_reachable hg hb harc.1
  have hlt : g.rank b < g.rank c := idxOf_lt_of_forwardArc hg hmem harc
  rcases rank_of_path hg (mem_discovery_of_arc hg hmem harc.1) hpath with rfl | hback
  · exact Nat.lt_irrefl _ hlt
  · exact Nat.lt_asymm hlt hback

/-- If forward edges lead from the end of an edge back to its start, it is a backedge. -/
theorem backedge_of_forward_path (hg : g.Sound) (hu : g.Reachable u) (harc : g.Arc u v)
    (hpath : Relation.ReflTransGen g.ForwardArc v u) : ⟨u, v⟩ ∈ g.backedges := by
  by_contra hnot
  exact not_forward_cycle hg hu (Relation.TransGen.head' ⟨harc, hnot⟩ hpath)

/-- An edge to a dominator of its source is a backedge. -/
theorem backedge_of_dominates (hg : g.Sound) (hu : g.Reachable u) (harc : g.Arc u v)
    (hdom : g.Dominates v u) : ⟨u, v⟩ ∈ g.backedges :=
  backedge_of_forward_path hg hu harc
    (hdom.forward_path hg (mem_discovery_of_reachable hg hu harc))

/-! ## Graphs with the same edges -/

private theorem reachable_congr (h : ∀ u v, g'.Arc u v ↔ g.Arc u v) :
    g'.Reachable b ↔ g.Reachable b := by
  rw [Reachable, Reachable, funext₂ fun u v ↦ propext (h u v)]

private theorem dominates_congr (h : ∀ u v, g'.Arc u v ↔ g.Arc u v) :
    g'.Dominates v u ↔ g.Dominates v u := by
  rw [Dominates, Dominates, funext₂ fun u v ↦ propext (h u v)]

private theorem mem_backedges_congr (hg : g.Sound) (hg' : g'.Sound) (hred : g.Reducible)
    (h : ∀ u v, g'.Arc u v ↔ g.Arc u v) (e : Backedge) :
    e ∈ g'.backedges ↔ e ∈ g.backedges := by
  constructor
  · intro he
    obtain ⟨w, hw, hmem⟩ := discovery_returns hg' e he
    have hwalk : g.SimpleWalk w e.source :=
      ⟨hw.head_eq, hw.last_eq, hw.chain.imp fun u v ↦ (h u v).mp, hw.nodup⟩
    exact backedge_of_forward_path hg hwalk.reachable ((h _ _).mp (arc_of_backedge hg' he))
      (path_of_mem_walk hwalk.last_eq (hwalk.forward hred) hmem)
  · intro he
    obtain ⟨w, hw, -⟩ := discovery_returns hg e he
    exact backedge_of_dominates hg' ((reachable_congr h).mpr hw.reachable)
      ((h _ _).mpr (arc_of_backedge hg he)) ((dominates_congr h).mpr (hred e he))

end Graph

/-! ## The search over an explicit stack

The search that only looks for backedges keeps its blocks on a stack of its own. It goes the way of
the discovery search and finds the same backedges, and in a reducible graph turning the targets of a
block around changes nothing. -/

namespace Numberer

/-- The backedges in the order in which the discovery search finds them. -/
def findBackedges (g : Graph) (fuel : Nat) : Attempt (List Backedge) := do
  if g.blockCount = 0 then return []
  else
    let m ← (start g.blockCount).push g 0 .unvisited
    return (← drive (discoverStep g) fuel m).backedges.toList

private theorem gives_findBackedges {g : Graph} (hg : g.Sound) :
    Attempt.Gives (findBackedges g) (.ok g.backedges) := by
  by_cases hzero : g.blockCount = 0
  · have hnone : g.backedges = [] := by rw [Graph.backedges, Graph.discovery, if_pos hzero]; rfl
    have hfind : findBackedges g = fun _ ↦ pure [] := funext fun fuel ↦ if_pos hzero
    rw [hnone, hfind]
    exact Attempt.gives_pure []
  · obtain ⟨m, hpush, hgoes, hstack, hm⟩ := exists_goes_discovery hg (Nat.pos_of_ne_zero hzero)
    have hfind : findBackedges g = fun fuel ↦ (start g.blockCount).push g 0 .unvisited >>=
        fun m ↦ drive (discoverStep g) fuel m >>= fun m ↦ pure m.backedges.toList :=
      funext fun fuel ↦ if_neg hzero
    rw [hfind, hpush, Graph.backedges, ← hm.backedges]
    exact (Attempt.gives_pure _).bind ((hgoes.gives hstack).bind (Attempt.gives_pure _))

end Numberer

namespace Graph

/-- Taking the backedges away from what the entry reaches leaves no cycle. Every backedge lies on a
cycle, and every edge to a dominator of its source is a backedge. If all headers dominate their
sources, the backedges are exactly these edges, in every graph with the same edges. -/
theorem cuts_cycles {g : Graph} (hbuilt : g.Built) :
    Attempt.Gives (Numberer.findBackedges g) (.ok g.backedges) ∧
    (∀ b, g.Reachable b →
      ¬Relation.TransGen (fun u v ↦ g.Arc u v ∧ ⟨u, v⟩ ∉ g.backedges) b b) ∧
    (∀ e ∈ g.backedges, g.Reachable e.source ∧ g.Arc e.source e.header ∧
      Relation.ReflTransGen g.Arc e.header e.source) ∧
    (∀ u v, g.Reachable u → g.Arc u v → g.Dominates v u → ⟨u, v⟩ ∈ g.backedges) ∧
    ((∀ e ∈ g.backedges, g.Dominates e.header e.source) →
      (∀ u v, ⟨u, v⟩ ∈ g.backedges ↔ g.Reachable u ∧ g.Arc u v ∧ g.Dominates v u) ∧
      ∀ g' : Graph, g'.Built → (∀ u v, g'.Arc u v ↔ g.Arc u v) →
        ∀ e, e ∈ g'.backedges ↔ e ∈ g.backedges) := by
  have hg := hbuilt.sound
  have hcycle : ∀ e ∈ g.backedges, g.Reachable e.source ∧ g.Arc e.source e.header ∧
      Relation.ReflTransGen g.Arc e.header e.source := by
    intro e he
    obtain ⟨w, hw, hmem⟩ := discovery_returns hg e he
    exact ⟨hw.reachable, arc_of_backedge hg he, path_of_mem_walk hw.last_eq hw.chain hmem⟩
  refine ⟨Numberer.gives_findBackedges hg, fun b ↦ not_forward_cycle hg, hcycle,
    fun u v ↦ backedge_of_dominates hg, fun hred ↦ ⟨fun u v ↦ ⟨fun he ↦ ?_, fun h ↦ ?_⟩,
    fun g' hbuilt' ↦ mem_backedges_congr hg hbuilt'.sound hred⟩⟩
  · obtain ⟨hreach, harc, -⟩ := hcycle _ he
    exact ⟨hreach, harc, hred _ he⟩
  · exact backedge_of_dominates hg h.1 h.2.1 h.2.2

private theorem reducible_sampleLoop : sampleLoop.Reducible := by
  intro e he
  rw [show sampleLoop.backedges = [⟨2, 1⟩] from rfl, List.mem_singleton] at he
  subst he
  have hbuilt : sampleLoop.Built := Sketch.graph_built ⟨[[1], [2, 3], [1], []], [1]⟩ .empty rfl
  refine dominates_of_arc (by decide) fun p hp ↦ ?_
  have hmem := hbuilt.sound.mem_predecessors_iff.mpr hp
  rwa [show sampleLoop.predecessors 2 = [1] from rfl, List.mem_singleton] at hmem

/-- The same loop, left on the true side of its branch. -/
def turnedLoop : Graph :=
  ((Sketch.mk [[1], [3, 2], [1], []] [1]).graph .empty).toOption.getD (.empty .empty)

theorem cuts_cycles_sampleLoop :
    Attempt.Gives (Numberer.findBackedges sampleLoop) (.ok [⟨2, 1⟩]) ∧
      Relation.ReflTransGen sampleLoop.Arc 1 2 ∧
      ¬Relation.TransGen (fun u v ↦ sampleLoop.Arc u v ∧ ⟨u, v⟩ ∉ sampleLoop.backedges) 1 1 ∧
      ∀ e, e ∈ turnedLoop.backedges ↔ e ∈ sampleLoop.backedges := by
  have hbuilt : sampleLoop.Built := Sketch.graph_built ⟨[[1], [2, 3], [1], []], [1]⟩ .empty rfl
  have hturned : turnedLoop.Built := Sketch.graph_built ⟨[[1], [3, 2], [1], []], [1]⟩ .empty rfl
  have harc : ∀ u v, turnedLoop.Arc u v ↔ sampleLoop.Arc u v := by
    have hsmall : ∀ u < 4, ∀ v < 4, turnedLoop.Arc u v ↔ sampleLoop.Arc u v := by decide
    intro u v
    constructor
    · intro h
      have hlt := hturned.sound.arc_lt h
      exact (hsmall u hlt.1 v hlt.2).mp h
    · intro h
      have hlt := hbuilt.sound.arc_lt h
      exact (hsmall u hlt.1 v hlt.2).mpr h
  obtain ⟨hgives, hacyclic, hcycle, -, hred⟩ := cuts_cycles hbuilt
  refine ⟨hgives, (hcycle ⟨2, 1⟩ (by decide)).2.2, hacyclic 1 ?_,
    (hred reducible_sampleLoop).2 turnedLoop hturned harc⟩
  exact .single (by decide)

end Graph

end Flowgraph
