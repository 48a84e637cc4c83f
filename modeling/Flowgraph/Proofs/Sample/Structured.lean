import Flowgraph.Proofs.Order.Cycles
import Flowgraph.Proofs.Sample.Generation
import Flowgraph.Proofs.Sample.Termination

/-!
# Structured graphs

A generated sketch is that of a shape, and its graph has exactly the edges of the shape. So an edge
leads to a block with a higher number, or it is the one from the tail of a loop to its header.

The header of a loop dominates the tail, as edges enter the loop there only. A search comes to the
tail of a backedge on a walk that visits no block twice. Such a walk takes no edge to a dominator,
and thus goes to higher numbers all the way: what it has left behind has lower numbers, and the
backedge is one of a loop of the shape.
-/

namespace Flowgraph.Structured

/-! ## Filled tables -/

section Tables

variable {links : List (BlockIndex × List BlockIndex)} {table : Array (List BlockIndex)}
  {u : BlockIndex} {ts : List BlockIndex}

theorem getElem?_fill_of_notMem (h : u ∉ links.map Prod.fst) :
    (fill links table)[u]? = table[u]? := by
  induction links generalizing table with
  | nil => rfl
  | cons p links ih =>
    rw [List.map_cons, List.mem_cons, not_or] at h
    refine (ih h.2).trans ?_
    rw [Array.getElem?_setIfInBounds_ne (Ne.symm h.1)]

private theorem getElem?_fill (hnodup : (links.map Prod.fst).Nodup) (hu : u < table.size)
    (h : (u, ts) ∈ links) : (fill links table)[u]? = some ts := by
  induction links generalizing table with
  | nil => cases h
  | cons p links ih =>
    rw [List.map_cons, List.nodup_cons] at hnodup
    rcases List.mem_cons.mp h with rfl | h
    · refine (getElem?_fill_of_notMem hnodup.1).trans ?_
      exact Array.getElem?_setIfInBounds_self_of_lt hu
    · exact ih hnodup.2 (by rwa [Array.size_setIfInBounds]) h

end Tables

namespace Shape

variable {sh : Shape} {u v b : BlockIndex} {c : Circuit} {ts : List BlockIndex}

/-! ## The sketch of a shape

The table of successors of a shape has a row for every block, and the row of the exit is empty. -/

theorem length_sketch (sh : Shape) : sh.sketch.successors.length = 1 + sh.size := by
  rw [sketch, Array.length_toList, size_fill, Array.size_replicate]

theorem blocks_perm (sh : Shape) :
    (sh.exit 0 1 :: (sh.links 0 1).map Prod.fst).Perm (List.range (1 + sh.size)) := by
  rw [List.range_eq_range', Nat.add_comm, List.range'_succ]
  exact sh.links_perm 0 1

theorem nodup_blocks (sh : Shape) : (sh.exit 0 1 :: (sh.links 0 1).map Prod.fst).Nodup :=
  sh.blocks_perm.nodup_iff.mpr List.nodup_range

theorem successors_of_link (h : (u, ts) ∈ sh.links 0 1) : sh.sketch.successors[u]? = some ts := by
  have hu := sh.blocks_perm.mem_iff.mp (List.mem_cons_of_mem _ (List.mem_map_of_mem h))
  rw [sketch, Array.getElem?_toList]
  refine getElem?_fill (List.nodup_cons.mp sh.nodup_blocks).2 ?_ h
  rw [Array.size_replicate]
  exact List.mem_range.mp hu

theorem successors_exit (sh : Shape) : sh.sketch.successors[sh.exit 0 1]? = some [] := by
  have hu := sh.blocks_perm.mem_iff.mp List.mem_cons_self
  rw [sketch, Array.getElem?_toList, getElem?_fill_of_notMem (List.nodup_cons.mp sh.nodup_blocks).1,
    Array.getElem?_replicate, if_pos (List.mem_range.mp hu)]

/-- All blocks are finished by a link, but for the exit. -/
theorem link_or_exit (h : sh.sketch.successors[u]? = some ts) :
    (u, ts) ∈ sh.links 0 1 ∨ u = sh.exit 0 1 ∧ ts = [] := by
  have hu := (List.getElem?_eq_some_iff.mp h).1
  rw [length_sketch] at hu
  rcases List.mem_cons.mp (sh.blocks_perm.mem_iff.mpr (List.mem_range.mpr hu)) with rfl | hmem
  · rw [successors_exit] at h
    exact Or.inr ⟨rfl, (Option.some.inj h).symm⟩
  · obtain ⟨⟨u, ts'⟩, hlink, rfl⟩ := List.mem_map.mp hmem
    rw [successors_of_link hlink] at h
    exact Or.inl (Option.some.inj h ▸ hlink)

theorem mem_successors_iff :
    (∃ ts, sh.sketch.successors[u]? = some ts ∧ v ∈ ts) ↔ sh.Edge 0 1 u v := by
  constructor
  · rintro ⟨ts, hts, hv⟩
    rcases link_or_exit hts with h | ⟨-, rfl⟩
    · exact ⟨ts, h, hv⟩
    · cases hv
  · rintro ⟨ts, h, hv⟩
    exact ⟨ts, successors_of_link h, hv⟩

private theorem drawable (sh : Shape) : sh.sketch.Drawable := by
  constructor
  · intro ts hts t ht
    obtain ⟨u, hu⟩ := List.mem_iff_getElem?.mp hts
    have := edge_bounds (mem_successors_iff.mp ⟨ts, hu, ht⟩)
    rw [length_sketch]
    exact this.2.2
  · intro ts hts
    obtain ⟨u, hu⟩ := List.mem_iff_getElem?.mp hts
    rcases link_or_exit hu with h | ⟨-, rfl⟩
    · exact length_le_two sh 0 1 _ h
    · exact Nat.zero_le 2

private theorem operationCount_le (sh : Shape) : sh.sketch.operationCount ≤ 4 * sh.cost + 1 := by
  have htable : sh.sketch.successors
      = (List.range (1 + sh.size)).map fun u ↦ sh.sketch.successors[u]?.getD [] := by
    refine List.ext_getElem ?_ fun u hu _ ↦ ?_
    · rw [List.length_map, List.length_range, length_sketch]
    · rw [List.getElem_map, List.getElem_range, List.getElem?_eq_getElem hu, Option.getD_some]
  have hlinks : ((sh.links 0 1).map Prod.fst).map
      (fun u ↦ Sketch.opsFor (sh.sketch.successors[u]?.getD []))
      = (sh.links 0 1).map fun p ↦ Sketch.opsFor p.2 := by
    rw [List.map_map]
    refine List.map_congr_left fun p hp ↦ ?_
    rw [Function.comp_apply, successors_of_link hp, Option.getD_some]
  have hsum := sh.sum_opsFor_le 0 1
  -- in place of the order of the table, the exit comes first and the links follow
  rw [Sketch.operationCount, htable, List.map_map, ← (sh.blocks_perm.map _).sum_eq, List.map_cons,
    List.sum_cons, Function.comp_def, hlinks]
  change Sketch.opsFor (sh.sketch.successors[sh.exit 0 1]?.getD []) + _ ≤ _
  rw [successors_exit, Option.getD_some, Sketch.opsFor_nil]
  omega

private theorem predecessorCount_pos_iff (hb : b < sh.sketch.successors.length) :
    0 < sh.sketch.predecessorCount b ↔ b ≠ 0 := by
  have hentered : 0 < sh.sketch.predecessorCount b ↔ ∃ u, sh.Edge 0 1 u b := by
    rw [Sketch.predecessorCount, List.count_pos_iff, List.mem_flatten]
    simp only [← mem_successors_iff, List.mem_iff_getElem? (l := sh.sketch.successors)]
    constructor
    · rintro ⟨ts, ⟨u, hu⟩, hb⟩
      exact ⟨u, ts, hu, hb⟩
    · rintro ⟨u, ts, hu, hb⟩
      exact ⟨ts, ⟨u, hu⟩, hb⟩
  rw [length_sketch] at hb
  rw [hentered]
  constructor
  · rintro ⟨u, h⟩
    have := edge_bounds h
    lia
  · intro hne
    obtain ⟨u, -, h⟩ := sh.exists_edge_below Nat.one_pos (b := b) (by lia)
    exact ⟨u, h⟩

theorem nodup_headers (sh : Shape) : ((sh.loops 1).map Circuit.header).Nodup :=
  List.pairwise_map.mpr ((sh.pairwise_header 1).imp fun h ↦ Nat.ne_of_lt h)

/-! ## The graph of a shape

What was proved of shapes, read as facts on the graph: arcs, reachability, dominance, backedges and
loops. -/

section Graph

variable {g : Graph} (h : Sketch.Drawing sh.sketch sh.sketch.successors.length none g)

include h

theorem blockCount_eq : g.blockCount = 1 + sh.size := h.blockCount_eq.trans sh.length_sketch

theorem arc_iff : g.Arc u v ↔ sh.Edge 0 1 u v := by
  rw [← mem_successors_iff]
  by_cases hu : u < sh.sketch.successors.length
  · rw [Graph.Arc, h.successors_eq hu, List.getElem?_eq_getElem hu]
    simp
  · refine iff_of_false (fun harc ↦ hu ?_) ?_
    · exact h.blockCount_eq ▸ (h.sound.arc_lt harc).1
    · rintro ⟨ts, hts, -⟩
      exact hu (List.getElem?_eq_some_iff.mp hts).1

theorem reachable (hb : b < g.blockCount) : g.Reachable b := by
  rw [blockCount_eq h] at hb
  -- a block is entered from one with a lower number
  induction b using Nat.strongRecOn with
  | _ b ih =>
    by_cases hzero : b = 0
    · exact hzero ▸ .refl
    · obtain ⟨u, hu, hedge⟩ := sh.exists_edge_below Nat.one_pos (b := b) (by lia)
      exact (ih u hu (by lia)).tail ((arc_iff h).mpr hedge)

/-- The header of a loop dominates the tail. -/
theorem dominates_tail (hc : c ∈ sh.loops 1) : g.Dominates c.header c.tail := by
  have hbounds := loop_bounds hc
  have hinside : ∀ b, b ∈ (List.range g.blockCount).filter
      (fun b ↦ b < c.header ∨ c.stop ≤ b) ↔ b < g.blockCount ∧ (b < c.header ∨ c.stop ≤ b) := by
    simp
  refine Graph.dominates_of_closed (Or.inl ((hinside 0).mpr ?_)) (fun u hu v harc ↦ ?_)
    (fun hin ↦ ?_)
  · rw [blockCount_eq h]
    lia
  · have hedge := (arc_iff h).mp harc
    have := edge_bounds hedge
    have := loop_closed Nat.one_pos hc hedge
    rw [hinside, blockCount_eq h] at *
    lia
  · rw [hinside] at hin
    lia

/-- A walk that visits no block twice goes to higher numbers all the way. -/
private theorem increasing {w : List BlockIndex} (hw : g.SimpleWalk w b) : w.IsChain (· < ·) := by
  refine hw.not_dominates.imp fun u v hstep ↦ ?_
  obtain ⟨harc, hdom⟩ := hstep
  by_contra hle
  obtain ⟨c, hc, rfl, rfl⟩ := exists_loop_of_edge Nat.one_pos ((arc_iff h).mp harc)
    (Nat.not_lt.mp hle)
  exact hdom (dominates_tail h hc)

/-- The backedges are the edges from the tails of the loops to their headers. -/
theorem mem_backedges_iff :
    ⟨u, v⟩ ∈ g.backedges ↔ ∃ c ∈ sh.loops 1, c.tail = u ∧ c.header = v := by
  constructor
  · intro he
    -- the search has passed the header on its walk to the source
    obtain ⟨w, hw, hmem⟩ := Graph.discovery_returns h.sound _ he
    have hpath := Graph.path_of_mem_walk hw.last_eq (increasing h hw) hmem
    have hle : ∀ {b}, Relation.ReflTransGen (· < ·) v b → v ≤ b := fun hpath ↦ by
      induction hpath with
      | refl => exact Nat.le_refl v
      | tail _ hlt ih => exact ih.trans (Nat.le_of_lt hlt)
    have harc := Graph.arc_of_backedge h.sound he
    exact exists_loop_of_edge Nat.one_pos ((arc_iff h).mp harc) (hle hpath)
  · rintro ⟨c, hc, rfl, rfl⟩
    have harc := (arc_iff h).mpr (edge_of_loop hc)
    exact Graph.backedge_of_dominates h.sound (reachable h (h.sound.arc_lt harc).1) harc
      (dominates_tail h hc)

private theorem reducible : g.Reducible := by
  rintro ⟨u, v⟩ he
  obtain ⟨c, hc, rfl, rfl⟩ := (mem_backedges_iff h).mp he
  exact dominates_tail h hc

private theorem inLoop_iff (hc : c ∈ sh.loops 1) : g.InLoop c.header b ↔ b ∈ c.members := by
  have hbounds := loop_bounds hc
  rw [Circuit.mem_members]
  constructor
  · rintro (rfl | ⟨u, he, -, hpath⟩)
    · lia
    · obtain ⟨c', hc', rfl, heq⟩ := (mem_backedges_iff h).mp he
      cases List.inj_on_of_nodup_map sh.nodup_headers hc' hc heq
      induction hpath using Relation.ReflTransGen.head_induction_on with
      | refl => lia
      | head harc _ ih =>
        obtain ⟨harc, -, hne⟩ := harc
        have hlt := Nat.lt_of_le_of_ne ih.1 (Ne.symm hne)
        exact loop_closed Nat.one_pos hc ((arc_iff h).mp harc) ⟨hlt, ih.2⟩
  · intro hb
    by_cases heq : b = c.header
    · exact Or.inl heq
    · have hpath : sh.Inside 0 1 c.header b c.tail := inside_tail hc (by lia)
      have htail : c.header < c.tail := by
        rcases Relation.ReflTransGen.cases_tail hpath with htail | ⟨u, -, htail⟩
        · lia
        · exact htail.2.2
      refine Or.inr ⟨c.tail, (mem_backedges_iff h).mpr ⟨c, hc, rfl, rfl⟩, Nat.ne_of_gt htail, ?_⟩
      refine Relation.ReflTransGen.mono (fun u v hstep ↦ ?_) _ _ hpath
      exact ⟨(arc_iff h).mpr hstep.1, Nat.ne_of_gt hstep.2.1, Nat.ne_of_gt hstep.2.2⟩

theorem mem_headers_iff :
    b ∈ g.headers ↔ b ∈ (sh.loops 1).map Circuit.header := by
  simp only [Graph.mem_headers, mem_backedges_iff h, List.mem_map]
  constructor
  · rintro ⟨u, c, hc, -, hb⟩
    exact ⟨c, hc, hb⟩
  · rintro ⟨c, hc, hb⟩
    exact ⟨c.tail, c, hc, rfl, hb⟩

private theorem loopsMarked : g.LoopsMarked := by
  intro b blk hblk
  have hkind : blk.kind = sh.sketch.kind b := h.kind_eq hblk
  have hpos : b ∈ sh.sketch.headers → b ≠ 0 := fun hb ↦ by
    obtain ⟨c, hc, rfl⟩ := List.mem_map.mp hb
    have := loop_bounds hc
    lia
  rw [← Graph.mem_headers, mem_headers_iff h, Block.isLoop, hkind, decide_eq_true_iff,
    Sketch.kind_eq_loop]
  exact and_iff_right_of_imp hpos

private theorem fit : g.Fit where
  wellFormed := h.wellFormed (by rw [length_sketch]; lia) fun _ ↦ predecessorCount_pos_iff
  reached b hb := (Graph.mem_discovery_iff h.sound (Nat.zero_lt_of_lt hb)).mpr (reachable h hb)
  loopsMarked := loopsMarked h

private theorem problems_eq_nil (ordered : Bool) : g.problems ordered = [] := by
  refine (Graph.problems_eq_nil h.sound ordered).mpr ⟨fit h, fun _ u v harc ↦ ?_⟩
  rw [mem_backedges_iff h]
  constructor
  · rintro ⟨c, hc, rfl, rfl⟩
    exact (loop_bounds hc).2.1
  · exact exists_loop_of_edge Nat.one_pos ((arc_iff h).mp harc)

private theorem exists_numbering : ∃ num, g.numbering = .ok num ∧
    (num.loops.map Loop.header).Perm ((sh.loops 1).map Circuit.header) ∧
    ∀ l ∈ num.loops, ∃ c ∈ sh.loops 1, c.header = l.header ∧ l.members.toList.Perm c.members := by
  have hentry : ∀ u, ¬g.Arc u 0 := fun u harc ↦ by
    have := edge_bounds ((arc_iff h).mp harc)
    lia
  obtain ⟨num, hnum, hloops, -⟩ := Graph.exists_numbering h.sound (fun b ↦ reachable h) hentry
  refine ⟨num, hnum, ?_, fun l hl ↦ ?_⟩
  · rw [hloops, Graph.map_header_loops h.sound,
      List.perm_ext_iff_of_nodup (Graph.nodup_headers g) sh.nodup_headers]
    exact fun b ↦ mem_headers_iff h
  · rw [hloops] at hl
    obtain ⟨hheader, htidy, hmembers⟩ := Graph.loops_spec h.sound hl
    obtain ⟨c, hc, heq⟩ := List.mem_map.mp ((mem_headers_iff h).mp hheader)
    refine ⟨c, hc, heq, ?_⟩
    rw [List.perm_ext_iff_of_nodup htidy.nodup c.nodup_members]
    intro b
    rw [htidy.mem_iff, hmembers, ← heq, inLoop_iff h hc]

end Graph

end Shape

/-- Generation ends by itself, with up to four operations for each unit of the budget and one more.
This rests on `Source.word_ne_zero`: a source that went on with zeros for ever would never let a
choice out of three come to an end. Nothing else is asked of the words. There is a graph of the
sketch unless it has more operations than there are handles. Verification finds no problem in the
graph, all headers of backedges dominate their sources, and numbering finds the loops that were
noted, with the members that were noted. -/
theorem structured_generate (source : Source) (budget : Int) :
    let s := generate source budget
    (∀ source' : Source, source'.word = source.word → ∀ depth, budget.toNat < depth →
      generateWithin source' depth budget.toNat = s) ∧
    s.sketch.operationCount ≤ 4 * budget.toNat + 1 ∧
    ∀ name, ((∃ g, s.sketch.graph name = .ok g) ↔ s.sketch.operationCount ≤ noHandle) ∧
      ∀ g, s.sketch.graph name = .ok g →
        (∀ ordered, g.problems ordered = []) ∧
        (∀ e ∈ g.backedges, g.Dominates e.header e.source) ∧
        ∃ num, g.numbering = .ok num ∧ (s.loops.map Prod.fst).Nodup ∧
          (num.loops.map Loop.header).Perm (s.loops.map Prod.fst) ∧
          ∀ l ∈ num.loops, ∃ members, (l.header, members) ∈ s.loops ∧
            l.members.toList.Perm members := by
  intro s
  obtain ⟨sh, hcost, hsketch, hloops⟩ := exists_shape source (budget.toNat + 1) budget.toNat
  change s.sketch = sh.sketch at hsketch
  change s.loops = (sh.loops 1).map Circuit.listed at hloops
  have hheaders : s.loops.map Prod.fst = (sh.loops 1).map Circuit.header := by
    rw [hloops, List.map_map]
    rfl
  rw [hsketch, hheaders]
  refine ⟨fun source' hword depth h ↦ generateWithin_congr hword (Nat.lt_succ_self _) h,
    ?_, fun name ↦ ⟨Sketch.exists_graph_iff sh.drawable name, fun g hg ↦ ?_⟩⟩
  · have := sh.operationCount_le
    omega
  · obtain ⟨h, -⟩ := Sketch.drawing_of_graph sh.drawable hg
    obtain ⟨num, hnum, hperm, hmembers⟩ := Shape.exists_numbering h
    refine ⟨Shape.problems_eq_nil h, Shape.reducible h, num, hnum, sh.nodup_headers, hperm,
      fun l hl ↦ ?_⟩
    obtain ⟨c, hc, heq, hmem⟩ := hmembers l hl
    exact ⟨c.members, hloops ▸ List.mem_map.mpr ⟨c, hc, congrArg (·, c.members) heq⟩, hmem⟩

/-- A source of the word 2, which always chooses one loop that tests last. -/
def twos (patience : Nat) : Source := ⟨fun _ ↦ 2, fun _ ↦ patience, fun _ ↦ by decide⟩

def loopInLoop : Graph :=
  ((Sketch.mk [[1], [2], [2, 3], [1, 4], []] [1, 2]).graph .empty).toOption.getD (.empty .empty)

theorem structured_generate_twos :
    generateWithin (twos 3) 7 2 = generate (twos 0) 2 ∧
    (generate (twos 0) 2).sketch.graph .empty = .ok loopInLoop ∧ loopInLoop.problems false = [] ∧
    ⟨3, 1⟩ ∈ loopInLoop.backedges ∧ loopInLoop.Dominates 1 3 ∧
    ∃ num, loopInLoop.numbering = .ok num ∧ (num.loops.map Loop.header).Perm [1, 2] ∧
      ∃ l ∈ num.loops, l.header = 1 ∧ l.members.toList.Perm [1, 2, 3] := by
  have hgenerate : (generate (twos 0) 2).sketch = ⟨[[1], [2], [2, 3], [1, 4], []], [1, 2]⟩ ∧
      (generate (twos 0) 2).loops = [(1, [1, 2, 3]), (2, [2])] := by decide +kernel
  obtain ⟨hends, -, hgraphs⟩ := structured_generate (twos 0) 2
  rw [hgenerate.1, hgenerate.2] at hgraphs
  obtain ⟨hexists, hright⟩ := hgraphs .empty
  obtain ⟨g, hg⟩ := hexists.mpr (by decide)
  have hnested : loopInLoop = g := by
    rw [loopInLoop, hg]
    rfl
  subst hnested
  have hback : ⟨3, 1⟩ ∈ loopInLoop.backedges := by decide
  obtain ⟨hproblems, hred, num, hnum, -, hperm, hmembers⟩ := hright _ hg
  refine ⟨hends (twos 3) rfl 7 (by decide), hgenerate.1 ▸ hg, hproblems false, hback,
    hred ⟨3, 1⟩ hback, num, hnum, hperm, ?_⟩
  obtain ⟨l, hl, hheader⟩ := List.mem_map.mp (hperm.mem_iff.mpr (List.mem_cons_self (a := 1)))
  obtain ⟨members, hmem, hsame⟩ := hmembers l hl
  rw [hheader] at hmem
  have heq : members = [1, 2, 3] := by simpa using hmem
  exact ⟨l, hl, hheader, heq ▸ hsame⟩

end Flowgraph.Structured
