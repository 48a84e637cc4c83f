import Flowgraph.Order.Postorder
import Flowgraph.Proofs.Order.Cycles

/-!
# Orders of graphs without loops

The discovery search puts each block in front of what it finished before; the textbook search
appends it and turns the list around in the end. Both come to the same list, whatever the graph.
Where no backedge is found this list is the special reverse postorder as well.

## What the textbook search forgets

It keeps one bit for a block, where the discovery search tells active blocks from finished ones.
The difference only matters for an edge to a block that was seen before: the one search may find
a backedge there, and neither goes on.
-/

namespace Flowgraph

namespace Graph

variable {g : Graph} {s : Discovery} {t : Array Bool × List BlockIndex} {b : BlockIndex}

/-- The state `t` of the textbook search stands for the state `s` of the discovery search. -/
structure Records (s : Discovery) (t : Array Bool × List BlockIndex) : Prop where
  seen : ∀ b : Nat, t.1[b]? = s.progress[b]?.map fun p ↦ decide (p ≠ .fresh)
  order : t.2.reverse = s.order

private theorem records_start (n : Nat) : Records (.start n) (Array.replicate n false, []) where
  seen b := by
    rw [Discovery.start, Array.getElem?_replicate, Array.getElem?_replicate]
    split <;> rfl
  order := rfl

/-- Marking a block as reached, in whatever way. -/
theorem Records.mark (h : Records s t) (b : BlockIndex) {p : Progress} (hp : p ≠ .fresh) :
    Records (s.mark b p) (t.1.setIfInBounds b true, t.2) := by
  refine ⟨fun c ↦ ?_, h.order⟩
  have hsize : t.1.size = s.progress.size := by
    have hlt : ∀ c : Nat, c < t.1.size ↔ c < s.progress.size := by
      intro c
      have hsome := congrArg Option.isSome (h.seen c)
      rwa [Option.isSome_map, Bool.eq_iff_iff, isSome_getElem?, isSome_getElem?] at hsome
    have h₁ := (hlt s.progress.size).mp
    have h₂ := (hlt t.1.size).mpr
    omega
  rw [Discovery.mark, Array.getElem?_setIfInBounds, Array.getElem?_setIfInBounds, hsize]
  split
  · split
    · rw [Option.map_some, decide_eq_true hp]
    · rfl
  · exact h.seen c

/-- A block is finished. It was marked before, so that the textbook search need not do it again. -/
private theorem Records.finish (h : Records s t) (hb : s.progress[b]? ≠ some .fresh) :
    Records (s.finish b) (t.1, t.2 ++ [b]) := by
  refine ⟨fun c ↦ ?_, ?_⟩
  · have hmark := (h.mark b (p := .done) Progress.noConfusion).seen c
    rw [Discovery.finish, ← hmark, Array.getElem?_setIfInBounds]
    split
    · rename_i hbc
      subst hbc
      split
      · rename_i hlt
        have hseen := h.seen b
        rw [Array.getElem?_eq_getElem hlt] at hseen ⊢
        obtain ⟨p, hp, heq⟩ := Option.map_eq_some_iff.mp hseen.symm
        have hreached : p ≠ .fresh := fun hfresh ↦ hb (hp.trans (congrArg some hfresh))
        rw [← heq, decide_eq_true hreached]
      · rename_i hlt
        exact Array.getElem?_eq_none (Nat.not_lt.mp hlt)
    · rfl
  · rw [List.reverse_append, h.order]
    rfl

private theorem Records.unseen_iff (h : Records s t) :
    t.1[b]? = some false ↔ s.progress[b]? = some .fresh := by
  rw [h.seen, Option.map_eq_some_iff]
  constructor
  · rintro ⟨p, hp, heq⟩
    rw [hp, not_not.mp (of_decide_eq_false heq)]
  · exact fun hp ↦ ⟨.fresh, hp, rfl⟩

private theorem postVisit_succ (g : Graph) (depth : Nat) (b : BlockIndex)
    (t : Array Bool × List BlockIndex) :
    postVisit g (depth + 1) b t =
      let below := (g.successors b).foldl
        (fun t c ↦ if t.1[c]? = some false then postVisit g depth c t else t)
        (t.1.setIfInBounds b true, t.2)
      (below.1, below.2 ++ [b]) := rfl

end Graph

namespace Discovery

variable {g : Graph}

/-- After a mark, the marked block and every block that was reached before are no longer fresh. -/
theorem mark_not_fresh {s : Discovery} {b c : BlockIndex} {p : Progress} (hp : p ≠ .fresh)
    (hb : c ≠ b → s.progress[b]? ≠ some .fresh) : (s.mark c p).progress[b]? ≠ some .fresh := by
  rw [mark, Array.getElem?_setIfInBounds]
  by_cases hcb : c = b
  · rw [if_pos hcb]
    by_cases hlt : c < s.progress.size
    · rw [if_pos hlt]
      exact fun heq ↦ hp (Option.some.inj heq)
    · rw [if_neg hlt]
      exact (Option.some_ne_none _).symm
  · rw [if_neg hcb]
    exact hb hcb

/-- Following edges takes no mark away, provided that visits take none away. -/
theorem foldl_followEdge_not_fresh {depth : Nat} {b c : BlockIndex}
    (hvisit : ∀ (d : BlockIndex) (s : Discovery), s.progress[b]? ≠ some .fresh →
      (visit g depth d s).progress[b]? ≠ some .fresh) (cs : List BlockIndex) {s : Discovery}
    (hb : s.progress[b]? ≠ some .fresh) :
    (cs.foldl (followEdge g depth c) s).progress[b]? ≠ some .fresh := by
  induction cs generalizing s with
  | nil => exact hb
  | cons d cs ih =>
    refine ih ?_
    rw [followEdge]
    split
    · exact hvisit d s hb
    · exact hb
    · exact hb

private theorem visit_not_fresh (g : Graph) (depth : Nat) (c : BlockIndex) (s : Discovery)
    {b : BlockIndex} (hb : s.progress[b]? ≠ some .fresh) :
    (visit g depth c s).progress[b]? ≠ some .fresh := by
  induction depth generalizing c s with
  | zero => exact hb
  | succ depth ih =>
    have hmarked : (s.mark c .active).progress[b]? ≠ some .fresh :=
      mark_not_fresh Progress.noConfusion fun _ ↦ hb
    have hedges := foldl_followEdge_not_fresh (c := c) ih (g.successors c) hmarked
    rw [visit_succ]
    exact mark_not_fresh Progress.noConfusion fun _ ↦ hedges

end Discovery

namespace Graph

variable {g : Graph} {s : Discovery} {t : Array Bool × List BlockIndex}

/-- Both searches follow the edges out of a block alike, provided that their visits agree. -/
private theorem Records.foldl {depth : Nat} (hvisit : ∀ (c : BlockIndex) {s : Discovery}
      {t : Array Bool × List BlockIndex}, Records s t →
      Records (Discovery.visit g depth c s) (postVisit g depth c t))
    (b : BlockIndex) (cs : List BlockIndex) (h : Records s t) :
    Records (cs.foldl (Discovery.followEdge g depth b) s)
      (cs.foldl (fun t c ↦ if t.1[c]? = some false then postVisit g depth c t else t) t) := by
  induction cs generalizing s t with
  | nil => exact h
  | cons c cs ih =>
    rw [List.foldl_cons, List.foldl_cons, Discovery.followEdge]
    by_cases hfresh : s.progress[c]? = some .fresh
    · simp only [hfresh, if_pos (h.unseen_iff.mpr hfresh)]
      exact ih (hvisit c h)
    · rw [if_neg fun hunseen ↦ hfresh (h.unseen_iff.mp hunseen)]
      split
      · rename_i heq
        exact absurd heq hfresh
      · -- a backedge is noted, of which the textbook search knows nothing
        exact ih ⟨h.seen, h.order⟩
      · exact ih h

private theorem Records.visit (g : Graph) (depth : Nat) (b : BlockIndex) (h : Records s t) :
    Records (Discovery.visit g depth b s) (postVisit g depth b t) := by
  induction depth generalizing b s t with
  | zero => exact h
  | succ depth ih =>
    have hmarked : (s.mark b .active).progress[b]? ≠ some .fresh :=
      Discovery.mark_not_fresh Progress.noConfusion fun hne ↦ absurd rfl hne
    have hbelow := Records.foldl (g := g) (fun c _ _ h ↦ ih c h) b (g.successors b)
      (h.mark b (p := .active) Progress.noConfusion)
    have hreached := Discovery.foldl_followEdge_not_fresh (c := b)
      (fun d _ ↦ Discovery.visit_not_fresh g depth d _) (g.successors b) hmarked
    rw [Discovery.visit_succ, postVisit_succ]
    exact hbelow.finish hreached

private theorem reversePostorder_eq (hpos : 0 < g.blockCount) :
    g.reversePostorder = .ok g.discovery.order := by
  rw [reversePostorder, if_neg hpos.ne', discovery, if_neg hpos.ne']
  exact congrArg Except.ok (Records.visit g g.blockCount 0 (records_start g.blockCount)).order

private theorem loops_eq_nil (hnone : g.backedges = []) : g.loops = [] := by
  rw [loops, headers, hnone]
  rfl

/-- On a graph whose blocks can all be reached and in which no backedge is found, the special
reverse postorder is the textbook one, true sides of branches first. A numberer ends with it. -/
theorem specialOrder_of_no_backedge {g : Graph} (hbuilt : g.Built) (hpos : 0 < g.blockCount)
    (hreach : ∀ b < g.blockCount, g.Reachable b) (hnone : g.backedges = []) :
    g.specialOrder = g.reversePostorder ∧
      ∃ order, g.reversePostorder = .ok order ∧ Attempt.Gives (Numberer.compute g) (.ok order) ∧
        order.Perm (List.range g.blockCount) ∧
        ∀ u v, g.Arc u v → order.idxOf u < order.idxOf v := by
  have hg := hbuilt.sound
  have hperm := discovery_perm hg hreach hpos
  have hlen : g.discovery.order.length = g.blockCount := by
    rw [hperm.length_eq, List.length_range]
  have hspecial : g.specialOrder = .ok g.discovery.order := by
    rw [specialOrder_eq, foundOrder, loops_eq_nil hnone, List.isEmpty_nil, if_pos rfl, ok_bind,
      if_pos hlen]
  have hgives := Numberer.gives_specialOrder hg
  rw [hspecial] at hgives
  refine ⟨hspecial.trans (reversePostorder_eq hpos).symm, g.discovery.order,
    reversePostorder_eq hpos, hgives, hperm, fun u v harc ↦ ?_⟩
  have hu : u ∈ g.discovery.order := hperm.mem_iff.mpr (List.mem_range.mpr (hg.arc_lt harc).1)
  exact idxOf_lt_of_forwardArc hg hu ⟨harc, hnone ▸ List.not_mem_nil⟩

/-- A branch with a shared successor and one with a single target. -/
def sampleJoin : Graph :=
  ((Sketch.mk [[2, 1], [3, 3], [1], []] []).graph .empty).toOption.getD (.empty .empty)

theorem specialOrder_sampleJoin :
    sampleJoin.specialOrder = sampleJoin.reversePostorder ∧
      ∃ order, sampleJoin.reversePostorder = .ok order ∧
        Attempt.Gives (Numberer.compute sampleJoin) (.ok order) ∧
        order.Perm (List.range 4) ∧ order.idxOf 2 < order.idxOf 1 := by
  have hbuilt : sampleJoin.Built :=
    Sketch.graph_built ⟨[[2, 1], [3, 3], [1], []], []⟩ .empty rfl
  have hreach : ∀ b < sampleJoin.blockCount, sampleJoin.Reachable b := fun b hb ↦
    (mem_discovery_iff hbuilt.sound (by decide)).mp
      ((by decide : ∀ b < 4, b ∈ sampleJoin.discovery.order) b hb)
  obtain ⟨heq, order, horder, hgives, hperm, hforward⟩ :=
    specialOrder_of_no_backedge hbuilt (by decide) hreach (by decide)
  exact ⟨heq, order, horder, hgives, hperm, hforward 2 1 (by decide)⟩

end Graph

end Flowgraph
