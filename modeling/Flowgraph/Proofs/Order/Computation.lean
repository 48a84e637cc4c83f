import Flowgraph.Proofs.Order.Fitness
import Flowgraph.Proofs.Order.Splicing

/-!
# What a numberer comes to

A numberer always ends, and its outcome is the special reverse postorder, however the loops of the
graph overlap. Both halves were followed turn by turn. What is left is to put them together and to
read the order off the links, where neither a circle nor a link outside the table can turn up, since
the links hold a list without repetitions.

It breaks off for two reasons only. The first is an entry that is a header itself, and the second a
block that cannot be reached.
-/

namespace Flowgraph

private theorem Layout.parkedAt_start (n k l : Nat) : (Layout.start n k).parkedAt l = [] := by
  rw [Layout.parkedAt, Layout.start, Array.getElem?_replicate]
  split <;> rfl

namespace Numberer

variable {g : Graph}

/-! ## Both searches

The first search gives the order if there are no loops. Otherwise the loops are gathered and the
second search starts over, from a state in which all links are unset. In both cases the links hold
the order at the end, and walking along them reads it off. -/

/-- The links hold an order of blocks that were found. -/
structure Holds (g : Graph) (order : List BlockIndex) (m : Numberer) : Prop where
  next_size : m.next.size = g.blockCount
  links : Links m.next m.order? order
  nodup : order.Nodup
  found : ∀ b ∈ order, b ∈ g.discovery.order

private theorem Holds.length_lt (hg : g.Sound) {order : List BlockIndex} {m : Numberer}
    (hm : Holds g order m) {b : BlockIndex} (hb : b < g.blockCount) (hnot : b ∉ order) :
    order.length < g.blockCount := by
  have hsub : b :: order ⊆ List.range g.blockCount := fun c hc ↦ by
    rw [List.mem_range]
    rcases List.mem_cons.mp hc with rfl | hc
    · exact hb
    · exact Graph.discovery_lt hg (hm.found c hc)
  have hle := ((List.nodup_cons.mpr ⟨hnot, hm.nodup⟩).subperm hsub).length_le
  rwa [List.length_range, List.length_cons] at hle

/-- The state in which the layout starts. -/
def prepared (g : Graph) (m : Numberer) : Numberer :=
  { m with loops := (g.loops.map LoopRecord.fresh).toArray, order? := none, open? := none }

theorem threads_start (hg : g.Sound) {m : Numberer} (hm : Discovers g g.discovery m) :
    Threads g g.loops (.start g.blockCount g.loops.length) [] (prepared g m) where
  next_size := hm.next_size
  progress_size := Array.size_replicate
  marks b hb := by
    change m.marks[b]? = _
    rw [hm.marks, ((Graph.discovery_traced hg).done_iff b).mpr hb,
      show (Layout.start _ _).progress[b]? = some .fresh from
        (Layout.fresh_start _).mpr (Graph.discovery_lt hg hb)]
    rfl
  loopOf b hb := by
    rw [Graph.findIdx?_loops hg]
    exact hm.loopOf b hb
  record {l loop} hl := by
    refine ⟨.fresh loop, ?_, rfl, (Layout.parkedAt_start _ _ _).symm⟩
    change (g.loops.map LoopRecord.fresh).toArray[l]? = _
    rw [List.getElem?_toArray, List.getElem?_map, hl]
    rfl
  parked_size := Array.size_replicate
  targets l c hc := by
    rw [Layout.parkedAt_start] at hc
    cases hc
  open_eq := rfl
  opened := by simp [Layout.start]
  links := .nil
  nodup := List.nodup_nil
  placed := by simp [Layout.start]

/-- The second search, once the loops are known. -/
def arrange (g : Graph) (fuel : Nat) (m : Numberer) : Attempt Numberer := do
  let m ← (prepared g m).push g 0 .visited1
  drive (layoutStep g fuel) fuel m

private theorem search_eq (hg : g.Sound) (hpos : 0 < g.blockCount) :
    ∃ m, m.stack = [] ∧ Discovers g g.discovery m ∧
      (g.loops = [] → Attempt.Gives (search g) (.ok m)) ∧
      ∀ {r}, g.loops ≠ [] → Attempt.Gives (fun fuel ↦ arrange g fuel m) r →
        Attempt.Gives (search g) r := by
  obtain ⟨m, hpush, hgoes, hstack, hm⟩ := exists_goes_discovery hg hpos
  have hcount : m.loopCount = g.loops.length := by
    rw [hm.loopCount, Graph.loops, List.length_map]
    rfl
  have hgather : ∀ fuel, g.blockCount ≤ fuel →
      m.backedges.toList.foldlM (gather g fuel m.loopOf) (Array.replicate m.loopCount .blank)
        = pure (g.loops.map LoopRecord.fresh).toArray := fun fuel hfuel ↦ by
    rw [hm.loopCount, hm.backedges]
    exact gather_backedges hg hm.loopOf hfuel
  have hfirst : Attempt.Gives (fun _ ↦ (start g.blockCount).push g 0 .unvisited)
      (.ok ((start g.blockCount).entered g 0)) := hpush ▸ Attempt.gives_pure _
  refine ⟨m, hstack, hm, fun hempty ↦ ?_, fun {r} hne hr ↦ ?_⟩
  · refine hfirst.bind ((hgoes.gives hstack).bind ?_)
    simp only [hcount, hempty, List.length_nil, if_true]
    exact Attempt.gives_pure m
  · refine hfirst.bind ((hgoes.gives hstack).bind ?_)
    have hcount' : m.loopCount ≠ 0 := by simpa [hcount] using hne
    obtain ⟨k, hk⟩ := hr
    refine ⟨max k g.blockCount, fun fuel hfuel ↦ ?_⟩
    rw [← hk fuel (by omega)]
    simp only [if_neg hcount', hgather fuel (by omega), pure_bind]
    rfl

section Arrange

variable {m : Numberer} (hg : g.Sound) (hpos : 0 < g.blockCount)
  (hm : Discovers g g.discovery m)

include hg hpos hm

theorem arrange_eq (fuel : Nat) :
    arrange g fuel m = drive (layoutStep g fuel) fuel ((prepared g m).entered g 0) := by
  have hentry : 0 ∈ g.discovery.order := List.mem_of_head? (Graph.discovery_head hg hpos)
  have hmark := mark_of_fresh (threads_start hg hm) hentry ((Layout.fresh_start _).mpr hpos)
  rw [arrange, push_of_mark hmark, pure_bind]

private theorem arrange_of_plain (hstack : m.stack = []) {order : List BlockIndex} {s' : Layout}
    (hentry : ∀ loop ∈ g.loops, loop.header ≠ 0)
    (hlaid : Layout.Laid g g.loops [0] (.start g.blockCount g.loops.length) s' order) :
    ∃ m', Attempt.Gives (fun fuel ↦ arrange g fuel m) (.ok m') ∧ Holds g order m' := by
  have hfresh : (Layout.start g.blockCount g.loops.length).Fresh 0 :=
    (Layout.fresh_start _).mpr hpos
  have hmem : 0 ∈ g.discovery.order := List.mem_of_head? (Graph.discovery_head hg hpos)
  have horder : s'.order = order := hlaid.extends.order_eq.trans (List.append_nil order)
  have hthreads := threads_start hg hm
  simp only [arrange_eq hg hpos hm]
  cases hlaid with
  | skip hnot => exact absurd hfresh hnot
  | park _ hl => cases hl
  | loop _ _ hl hheader => exact absurd hheader (hentry _ (List.mem_of_getElem? hl))
  | @block _ _ _ below _ n _ _ _ _ hbelow hrest =>
    cases hrest
    obtain ⟨-, m', hgoes, hstack', h', -⟩ := goes_block hg hthreads hmem hfresh hentry hbelow
      (follows_laid hg (Graph.nodup_header_loops hg) hbelow fun c hc ↦
        Graph.mem_discovery_of_arc hg hmem hc)
    have hrest_nil : (below.put 0).order ++ [] = [] ++ 0 :: n := (List.append_nil _).trans horder
    refine ⟨m', hgoes.gives (hstack'.trans hstack), h'.next_size, hrest_nil ▸ h'.links,
      hrest_nil ▸ h'.nodup, fun b hb ↦ (h'.placed b (hrest_nil ▸ hb)).1⟩

private theorem arrange_of_header {loop : Loop} (hloop : loop ∈ g.loops)
    (hheader : loop.header = 0) :
    Attempt.Gives (fun fuel ↦ arrange g fuel m) (.error (.breach (.loopStackCorrupted 0))) := by
  have hmem : 0 ∈ g.discovery.order := List.mem_of_head? (Graph.discovery_head hg hpos)
  have hthreads := threads_start hg hm
  have hnd := Graph.nodup_header_loops hg
  obtain ⟨l, hl⟩ := List.mem_iff_getElem?.mp hloop
  have hfresh : (Layout.start g.blockCount g.loops.length).Fresh 0 :=
    (Layout.fresh_start _).mpr hpos
  obtain ⟨n, hlaid⟩ := Layout.foldl_follow_laid g g.loops _ (g.successors 0)
    ((Layout.start g.blockCount g.loops.length).mark 0 .active) (Nat.le_refl _)
  obtain ⟨m', hgoes, hstack', h', -⟩ := follows_laid hg hnd hlaid
    (fun c hc ↦ Graph.mem_discovery_of_arc hg hmem hc) [] _ _ m.stack (hthreads.entered hg hmem) rfl
    (.own List.drop_zero)
  have hbelow := hlaid.extends
  have hseen := Layout.not_fresh_mark (p := .active) nofun hfresh.lt
  have hmark := h'.marks 0 hmem
  rw [hbelow.progress, if_neg fun hin ↦ hseen (hbelow.fresh 0 hin),
    Layout.progress_mark hfresh.lt, if_pos rfl] at hmark
  have hnum := loopOf_header hg hnd h' hl (hheader ▸ hmem)
  rw [hheader] at hnum
  -- the search starts at the entry without opening its loop
  have hopen : m'.open? ≠ some l := by
    rw [h'.open_eq, hbelow.open_eq]
    exact nofun
  simp only [arrange_eq hg hpos hm]
  refine hgoes.gives_error (by simp [hstack']) fun fuel _ ↦ ?_
  have hsettle : m'.settle ⟨0, 0 + (g.successors 0).length, g.successors 0⟩
      = throw (.breach (.loopStackCorrupted 0)) := by
    simp only [settle, if_neg (Nat.not_lt.mpr (Nat.le_add_left _ 0)), Attempt.read_of_some hnum,
      Attempt.read_of_some hmark, pure_bind, Progress.secondMark, if_true]
    exact if_pos hopen
  simp only [layoutStep, hstack', hsettle]
  rfl

end Arrange

end Numberer

namespace Graph

variable {g : Graph}

/-- What the searches come to, before it is checked that every block was reached. -/
def foundOrder (g : Graph) : Except Breach (List BlockIndex) :=
  if g.loops.isEmpty then .ok g.discovery.order else g.layout g.loops

theorem specialOrder_eq (g : Graph) : g.specialOrder = (do
    let order ← g.foundOrder
    if order.length = g.blockCount then .ok order
    else .error (.orderCovers order.length g.blockCount)) := by
  rw [specialOrder, numbering_eq, foundOrder]
  cases (if g.loops.isEmpty then .ok g.discovery.order else g.layout g.loops) with
  | error e => rfl
  | ok order =>
    by_cases hlen : order.length = g.blockCount
    · simp only [ok_bind, hlen, ne_eq, not_true_eq_false, if_true, if_false]
      rfl
    · simp only [ok_bind, hlen, ne_eq, not_false_eq_true, if_true, if_false]
      rfl

/-- Both searches of a numberer end. They find what the layout finds, and they break off where it
does. -/
theorem search_foundOrder (hg : g.Sound) (hpos : 0 < g.blockCount) :
    (∃ order m, g.foundOrder = .ok order ∧ Attempt.Gives (Numberer.search g) (.ok m) ∧
      Numberer.Holds g order m) ∨
    g.foundOrder = .error (.loopStackCorrupted 0) ∧
      Attempt.Gives (Numberer.search g) (.error (.breach (.loopStackCorrupted 0))) := by
  obtain ⟨m, hstack, hm, hplain, hloops⟩ := Numberer.search_eq hg hpos
  by_cases hempty : g.loops = []
  · refine .inl ⟨g.discovery.order, m, by simp [foundOrder, hempty], hplain hempty, ?_⟩
    exact ⟨hm.next_size, hm.order, nodup_discovery hg, fun _ hb ↦ hb⟩
  · have hfound : g.foundOrder = g.layout g.loops := by simp [foundOrder, hempty]
    by_cases hentry : ∀ loop ∈ g.loops, loop.header ≠ 0
    · obtain ⟨order, s', hlayout, hlaid⟩ := exists_laid g.loops hpos hentry
      obtain ⟨m', hgives, hholds⟩ := Numberer.arrange_of_plain hg hpos hm hstack hentry hlaid
      exact .inl ⟨order, m', hfound.trans hlayout, hloops hempty hgives, hholds⟩
    · push Not at hentry
      obtain ⟨loop, hloop, hheader⟩ := hentry
      refine .inr ⟨hfound.trans (if_pos ?_), hloops hempty
        (Numberer.arrange_of_header hg hpos hm hloop hheader)⟩
      exact List.any_eq_true.mpr ⟨loop, hloop, decide_eq_true hheader⟩

end Graph

namespace Numberer

variable {g : Graph}

private theorem compute_eq (hpos : 0 < g.blockCount) :
    compute g = fun fuel ↦ search g fuel >>= linearize g := by
  funext fuel
  rw [compute, if_neg hpos.ne']

private theorem linearize_of_holds {order : List BlockIndex} {m : Numberer} (hm : Holds g order m) :
    linearize g m = if order.length = g.blockCount then pure order
      else throw (.breach (.orderCovers order.length g.blockCount)) := by
  rw [linearize, walk_eq hm.links (hm.next_size ▸ hm.links.length_le hm.nodup), pure_bind]

/-- A numberer always ends, and its outcome is the special reverse postorder. -/
theorem gives_specialOrder (hg : g.Sound) :
    Attempt.Gives (compute g) (g.specialOrder.mapError Halt.breach) := by
  by_cases hpos : 0 < g.blockCount
  · rw [Graph.specialOrder_eq, compute_eq hpos]
    rcases Graph.search_foundOrder hg hpos with ⟨order, m, hfound, hsearch, hm⟩ | ⟨hfound, hsearch⟩
    · rw [hfound, ok_bind]
      refine hsearch.bind ?_
      rw [linearize_of_holds hm]
      split
      · exact Attempt.gives_pure order
      · exact Attempt.gives_throw _
    · rw [hfound]
      exact hsearch.bind_error
  · have hzero : g.blockCount = 0 := Nat.eq_zero_of_not_pos hpos
    obtain ⟨num, hnum, -, hperm, -⟩ := Graph.exists_numbering hg
      (fun b hb ↦ absurd hb (by omega)) (fun u hu ↦ hpos (hg.arc_lt hu).2)
    rw [hzero, List.range_zero, List.perm_nil] at hperm
    have hspecial : g.specialOrder = .ok [] := by
      rw [Graph.specialOrder, hnum, ok_bind, hperm]
      rfl
    have hcompute : compute g = fun _ ↦ pure [] := by
      funext fuel
      rw [compute, if_pos hzero]
    rw [hspecial, hcompute]
    exact Attempt.gives_pure []

/-- If every block can be reached and no edge enters the entry, a numberer ends with an order that
holds every block once and the entry first. If a block cannot be reached, it breaks off. -/
theorem gives_permutation {g : Graph} (hbuilt : g.Built) :
    ((∀ b < g.blockCount, g.Reachable b) → (∀ u, ¬g.Arc u 0) →
      ∃ order, Attempt.Gives (compute g) (.ok order) ∧ g.specialOrder = .ok order ∧
        order.Perm (List.range g.blockCount) ∧ order.head? = Graph.entry? g) ∧
    ((∃ b < g.blockCount, ¬g.Reachable b) →
      ∃ e, Attempt.Gives (compute g) (.error (.breach e)) ∧ g.specialOrder = .error e ∧
        (e = .loopStackCorrupted 0 ∨
          ∃ reached < g.blockCount, e = .orderCovers reached g.blockCount)) := by
  have hg := hbuilt.sound
  have hgives := gives_specialOrder hg
  refine ⟨fun hreach hentry ↦ ?_, fun ⟨b, hb, hnot⟩ ↦ ?_⟩
  · obtain ⟨num, hnum, -, hperm, hhead, -⟩ := Graph.exists_numbering hg hreach hentry
    have hspecial : g.specialOrder = .ok num.order := by
      rw [Graph.specialOrder, hnum, ok_bind]
      rfl
    rw [hspecial] at hgives
    exact ⟨num.order, hgives, hspecial, hperm, hhead⟩
  · have hpos := Nat.zero_lt_of_lt hb
    -- a block that is not found makes the order too short, unless the entry is a header
    have hspecial : ∃ e, g.specialOrder = .error e ∧ (e = .loopStackCorrupted 0 ∨
        ∃ reached < g.blockCount, e = .orderCovers reached g.blockCount) := by
      rw [Graph.specialOrder_eq]
      rcases Graph.search_foundOrder hg hpos with ⟨order, m, hfound, -, hm⟩ | ⟨hfound, -⟩
      · have hbnot : b ∉ order := fun hmem ↦
          hnot ((Graph.mem_discovery_iff hg hpos).mp (hm.found b hmem))
        have hlen := hm.length_lt hg hb hbnot
        refine ⟨_, ?_, .inr ⟨order.length, hlen, rfl⟩⟩
        rw [hfound, ok_bind, if_neg hlen.ne]
      · exact ⟨_, by rw [hfound]; rfl, .inl rfl⟩
    obtain ⟨e, he, hcase⟩ := hspecial
    rw [he] at hgives
    exact ⟨e, hgives, he, hcase⟩

/-- A block that nothing leads to. -/
def island : Graph :=
  ((Sketch.mk [[1], [], [1]] []).graph .empty).toOption.getD (.empty .empty)

/-- Loops that overlap do not keep a numberer from an order, while a block that nothing leads to
does. -/
theorem gives_permutation_tangle_island :
    (∃ order, Attempt.Gives (compute Graph.tangle) (.ok order) ∧ order.Perm (List.range 8)) ∧
      ∃ e, Attempt.Gives (compute island) (.error (.breach e)) ∧
        island.specialOrder = .error e := by
  have htangle : Graph.tangle.Built := Sketch.graph_built
    ⟨[[2, 1], [7], [3, 1], [6, 4], [5, 1], [6, 3], [5, 7], [2]], [2, 3, 6]⟩ .empty rfl
  have hisland : island.Built := Sketch.graph_built ⟨[[1], [], [1]], []⟩ .empty rfl
  have hreach : ∀ b < Graph.tangle.blockCount, Graph.tangle.Reachable b := fun b hb ↦
    (Graph.mem_discovery_iff htangle.sound (by decide)).mp
      ((by decide : ∀ b < 8, b ∈ Graph.tangle.discovery.order) b hb)
  have hentry : ∀ u, ¬Graph.tangle.Arc u 0 := fun u hu ↦
    (by decide : ∀ u < 8, ¬Graph.tangle.Arc u 0) u (htangle.sound.arc_lt hu).1 hu
  obtain ⟨order, hgives, -, hperm, -⟩ := (gives_permutation htangle).1 hreach hentry
  obtain ⟨e, hbreaks, hspecial, -⟩ := (gives_permutation hisland).2
    ⟨2, by decide, fun h ↦ absurd ((Graph.mem_discovery_iff hisland.sound (by decide)).mpr h)
      (by decide)⟩
  exact ⟨⟨order, hgives, hperm⟩, e, hbreaks, hspecial⟩

end Numberer

end Flowgraph
