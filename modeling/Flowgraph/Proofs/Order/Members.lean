import Flowgraph.Proofs.Order.Computation

/-!
# The members of loops

Whatever the graph, its loops are its natural loops. There is one for each target of a backedge,
and it consists of the header and of the blocks from which a walk around the header leads to the
source of one of its backedges.

The backedges of a header share one set of members. The walk backward from a later source skips
what the earlier ones brought in, and this is where a block could be missed. Nothing is, since
between two backedges the set has all predecessors of its members but the header.

A numberer finds these loops whether or not it comes to an order. It keeps their members in the
records that its layout works on, and the layout leaves them alone.
-/

namespace Flowgraph

/-! ## Walks around a header

A walk that misses the header is a path whose edges avoid it, and the other way round. Membership
can so be said without a word about how the walk is taken. -/

namespace Graph

variable {g : Graph} {h x u : BlockIndex}

private theorem avoids_of_walk : ∀ {w : List BlockIndex} {x : BlockIndex}, w.head? = some x →
    w.getLast? = some u → w.IsChain g.Arc → h ∉ w → Relation.ReflTransGen (g.Avoids h) x u := by
  intro w
  induction w with
  | nil => exact fun hhead ↦ nomatch hhead
  | cons y w ih =>
    intro x hhead hlast hchain hnot
    cases hhead
    cases w with
    | nil =>
      cases hlast
      exact .refl
    | cons z w =>
      rw [List.isChain_cons_cons] at hchain
      rw [List.mem_cons, not_or] at hnot
      rw [List.getLast?_cons_cons] at hlast
      have hz : z ≠ h := fun heq ↦ hnot.2 (heq ▸ List.mem_cons_self)
      exact (ih rfl hlast hchain.2 hnot.2).head ⟨hchain.1, Ne.symm hnot.1, hz⟩

private theorem exists_walk_of_avoids (hu : u ≠ h)
    (hpath : Relation.ReflTransGen (g.Avoids h) x u) :
    ∃ w : List BlockIndex, w.head? = some x ∧ w.getLast? = some u ∧ w.IsChain g.Arc ∧ h ∉ w := by
  induction hpath using Relation.ReflTransGen.head_induction_on with
  | refl => exact ⟨[u], rfl, rfl, List.isChain_singleton u, by simpa using hu.symm⟩
  | @head y z harc _ ih =>
    obtain ⟨w, hhead, hlast, hchain, hnot⟩ := ih
    obtain ⟨w, rfl⟩ : ∃ w', w = z :: w' := by
      cases w with
      | nil => cases hhead
      | cons z' w =>
        cases hhead
        exact ⟨w, rfl⟩
    refine ⟨y :: z :: w, rfl, by rwa [List.getLast?_cons_cons], ?_, ?_⟩
    · exact List.isChain_cons_cons.mpr ⟨harc.1, hchain⟩
    · rw [List.mem_cons, not_or]
      exact ⟨harc.2.1.symm, hnot⟩

private theorem inLoop_iff_walk : g.InLoop h x ↔ x = h ∨ ∃ u, ⟨u, h⟩ ∈ g.backedges ∧
    ∃ w : List BlockIndex, w.head? = some x ∧ w.getLast? = some u ∧ w.IsChain g.Arc ∧ h ∉ w := by
  refine or_congr_right ⟨?_, ?_⟩
  · rintro ⟨u, hu, hne, hpath⟩
    exact ⟨u, hu, exists_walk_of_avoids hne hpath⟩
  · rintro ⟨u, hu, w, hhead, hlast, hchain, hnot⟩
    have hne : u ≠ h := fun heq ↦ hnot (heq ▸ List.mem_of_getLast? hlast)
    exact ⟨u, hu, hne, avoids_of_walk hhead hlast hchain hnot⟩

end Graph

/-! ## What the layout keeps

The second search writes into the records of the loops, but never into what they say about members,
and the first search never takes a loop away. A fact that one turn keeps, the loop over turns keeps.
-/

namespace Attempt

variable {α β : Type}

theorem exists_of_bind_eq {x : Attempt α} {f : α → Attempt β} {b : β} (h : x >>= f = pure b) :
    ∃ a, x = pure a ∧ f a = pure b := by
  match x, h with
  | some (.ok a), h => exact ⟨a, rfl, h⟩
  | some (.error _), h => cases h
  | none, h => cases h

theorem pure_inj {a b : α} (h : (pure a : Attempt α) = pure b) : a = b := by
  cases h
  rfl

private theorem getElem?_of_read {table : Array α} {i : Nat} {a : α} (h : read table i = pure a) :
    table[i]? = some a := by
  rw [read] at h
  split at h
  · rename_i heq
    rw [heq, pure_inj h]
  · cases h

private theorem eq_of_write {table table' : Array α} {i : Nat} {a : α}
    (h : write table i a = pure table') : table' = table.setIfInBounds i a := by
  rw [write] at h
  split at h
  · exact (pure_inj h).symm
  · cases h

end Attempt

namespace Numberer

open Attempt

variable {g : Graph} {m m' : Numberer}

/-- The loops that a numberer has recorded, by their numbers. -/
def found (m : Numberer) : List (Option Loop) := m.loops.toList.map LoopRecord.loop?

/-- A record may change in all but its loop. -/
theorem found_of_write {loops loops' : Array LoopRecord} {l : Nat} {r r' : LoopRecord}
    (hr : read loops l = pure r) (hw : write loops l r' = pure loops') (heq : r'.loop? = r.loop?) :
    loops'.toList.map LoopRecord.loop? = loops.toList.map LoopRecord.loop? := by
  have hget := getElem?_of_read hr
  rw [eq_of_write hw]
  refine List.ext_getElem? fun j ↦ ?_
  rw [List.getElem?_map, List.getElem?_map, Array.getElem?_toList, Array.getElem?_toList,
    getElem?_setIfInBounds_of_lt (Array.getElem?_eq_some_iff.mp hget).1]
  split
  · rename_i hj
    rw [hj, hget, Option.map_some, Option.map_some, heq]
  · rfl

theorem found_push {b : BlockIndex} {mark : Mark} (h : m.push g b mark = pure m') :
    m'.found = m.found := by
  obtain ⟨mark', -, h⟩ := exists_of_bind_eq h
  split at h <;> cases pure_inj h <;> rfl

theorem found_pop {b : BlockIndex} {below : List Frame} {mark : Mark}
    (h : m.pop b below mark = pure m') : m'.found = m.found := by
  obtain ⟨next, -, h⟩ := exists_of_bind_eq h
  obtain ⟨marks, -, h⟩ := exists_of_bind_eq h
  cases pure_inj h
  rfl

private theorem found_close {b : BlockIndex} {l : Nat} (h : m.close b l = pure m') :
    m'.found = m.found := by
  rw [close] at h
  split at h
  · cases h
  · obtain ⟨r, hr, h⟩ := exists_of_bind_eq h
    obtain ⟨next, -, h⟩ := exists_of_bind_eq h
    obtain ⟨marks, -, h⟩ := exists_of_bind_eq h
    obtain ⟨loops, hw, h⟩ := exists_of_bind_eq h
    cases pure_inj h
    exact found_of_write hr hw rfl

private theorem found_settle {f : Frame} (h : m.settle f = pure m') : m'.found = m.found := by
  rw [settle] at h
  split at h
  · cases pure_inj h
    rfl
  · obtain ⟨number?, -, h⟩ := exists_of_bind_eq h
    split at h
    · cases pure_inj h
      rfl
    · obtain ⟨mark, -, h⟩ := exists_of_bind_eq h
      split at h
      · exact found_close h
      · cases pure_inj h
        rfl

private theorem found_opened {c : BlockIndex} (h : m.opened c = pure m') : m'.found = m.found := by
  obtain ⟨number?, -, h⟩ := exists_of_bind_eq h
  split at h
  · cases pure_inj h
    rfl
  · obtain ⟨r, hr, h⟩ := exists_of_bind_eq h
    obtain ⟨loops, hw, h⟩ := exists_of_bind_eq h
    cases pure_inj h
    exact found_of_write hr hw rfl

private theorem found_enter {c : BlockIndex} (h : m.enter g c = pure m') : m'.found = m.found := by
  obtain ⟨m₁, hpush, hopen⟩ := exists_of_bind_eq h
  exact (found_opened hopen).trans (found_push hpush)

private theorem found_park {l : Nat} {c : BlockIndex} (h : m.park l c = pure m') :
    m'.found = m.found := by
  obtain ⟨r, hr, h⟩ := exists_of_bind_eq h
  obtain ⟨loops, hw, h⟩ := exists_of_bind_eq h
  cases pure_inj h
  exact found_of_write hr hw rfl

private theorem found_layoutEdge {c : BlockIndex} (h : m.layoutEdge g c = pure m') :
    m'.found = m.found := by
  obtain ⟨mark, -, h⟩ := exists_of_bind_eq h
  split at h
  · cases pure_inj h
    rfl
  · cases pure_inj h
    rfl
  · split at h
    · exact found_enter h
    · obtain ⟨inside, -, h⟩ := exists_of_bind_eq h
      split at h
      · exact found_enter h
      · exact found_park h

private theorem found_retire {fuel : Nat} {f : Frame} {below : List Frame}
    (h : m.retire fuel f below = pure m') : m'.found = m.found := by
  obtain ⟨number?, -, h⟩ := exists_of_bind_eq h
  split at h
  · exact found_pop h
  · obtain ⟨r, hr, h⟩ := exists_of_bind_eq h
    obtain ⟨last, -, h⟩ := exists_of_bind_eq h
    obtain ⟨next, -, h⟩ := exists_of_bind_eq h
    obtain ⟨loops, hw, h⟩ := exists_of_bind_eq h
    cases pure_inj h
    exact found_of_write hr hw rfl

private theorem found_record {b c : BlockIndex} (h : m.record b c = pure m') :
    m'.found = m.found := by
  obtain ⟨number?, -, h⟩ := exists_of_bind_eq h
  split at h <;> cases pure_inj h <;> rfl

private theorem found_discoverStep (h : discoverStep g m = pure m') : m'.found = m.found := by
  rw [discoverStep] at h
  split at h
  · cases pure_inj h
    rfl
  · split at h
    · obtain ⟨mark, -, h⟩ := exists_of_bind_eq h
      split at h
      · cases pure_inj h
        rfl
      · have hrecord := found_record h
        exact hrecord
      · have hpush := found_push h
        exact hpush
    · exact found_pop h

private theorem found_layoutStep {fuel : Nat} (h : layoutStep g fuel m = pure m') :
    m'.found = m.found := by
  rw [layoutStep] at h
  split at h
  · cases pure_inj h
    rfl
  · obtain ⟨m₁, hsettle, h⟩ := exists_of_bind_eq h
    obtain ⟨target?, -, h⟩ := exists_of_bind_eq h
    have hkeep : m₁.found = m.found := found_settle hsettle
    split at h
    · have hedge := found_layoutEdge h
      exact hedge.trans hkeep
    · exact (found_retire h).trans hkeep

private theorem drive_keeps {α : Type} {step : Numberer → Attempt Numberer} {P : Numberer → α}
    (hstep : ∀ {m m'}, step m = pure m' → P m' = P m) : ∀ {fuel : Nat} {m : Numberer},
    drive step fuel m = pure m' → P m' = P m := by
  intro fuel
  induction fuel with
  | zero =>
    intro m h
    rw [drive] at h
    split at h
    · rw [pure_inj h]
    · cases h
  | succ fuel ih =>
    intro m h
    rw [drive] at h
    split at h
    · rw [pure_inj h]
    · obtain ⟨m₁, hturn, hrest⟩ := exists_of_bind_eq h
      exact (ih hrest).trans (hstep hturn)

/-! ## The loops that are found

Putting both together: the loops of a numberer are those of the graph, whether or not the layout
came to an order. -/

/-- The first search records the backedges and numbers their targets. With a turn for every block
each backward walk ends, and together they bring the loops into the records. -/
theorem exists_gathered (hg : g.Sound) (hpos : 0 < g.blockCount) :
    ∃ m, Attempt.Gives (fun fuel ↦
        (start g.blockCount).push g 0 .unvisited >>= drive (discoverStep g) fuel) (.ok m) ∧
      m.backedges.toList = g.backedges ∧ m.loopCount = g.loops.length ∧
      (∀ b < g.blockCount, m.loopOf[b]? = some (g.loops.findIdx? (·.header = b))) ∧
      ∀ fuel, g.blockCount ≤ fuel →
        m.backedges.toList.foldlM (gather g fuel m.loopOf) (Array.replicate m.loopCount .blank)
          = pure (g.loops.map LoopRecord.fresh).toArray := by
  obtain ⟨m, hpush, hgoes, hstack, hm⟩ := exists_goes_discovery hg hpos
  refine ⟨m, ?_, by rw [hm.backedges]; rfl, ?_, fun b hb ↦ ?_, fun fuel hfuel ↦ ?_⟩
  · simp only [hpush, pure_bind]
    exact hgoes.gives hstack
  · rw [hm.loopCount, Graph.loops, List.length_map]
    rfl
  · rw [hm.loopOf b hb, Graph.findIdx?_loops hg]
    rfl
  · rw [hm.loopCount, hm.backedges]
    exact gather_backedges hg hm.loopOf hfuel

private theorem found_of_search (hg : g.Sound) (hpos : 0 < g.blockCount)
    (h : Attempt.Gives (search g) (.ok m)) : m.found = g.loops.map some := by
  obtain ⟨m₁, ⟨k₁, hfirst⟩, -, hcount, -, hgather⟩ := exists_gathered hg hpos
  obtain ⟨k, hsearch⟩ := h
  have hbound : k₁ ≤ max k (max k₁ g.blockCount) ∧ g.blockCount ≤ max k (max k₁ g.blockCount) := by
    omega
  have hsearch := hsearch _ (Nat.le_max_left k (max k₁ g.blockCount))
  have hfirst := hfirst _ hbound.1
  have hgather := hgather _ hbound.2
  generalize max k (max k₁ g.blockCount) = fuel at hsearch hfirst hgather
  obtain ⟨m₀, hpush, hdrive⟩ := exists_of_bind_eq hfirst
  rw [search, hpush, pure_bind, hdrive] at hsearch
  obtain ⟨m₁', heq, hsearch⟩ := exists_of_bind_eq hsearch
  cases pure_inj heq
  split at hsearch
  · rename_i hzero
    cases pure_inj hsearch
    have hempty : g.loops = [] := List.eq_nil_of_length_eq_zero (hcount.symm.trans hzero)
    have hkeep := (drive_keeps found_discoverStep hdrive).trans (found_push hpush)
    rw [hkeep, hempty]
    rfl
  · rw [hgather, pure_bind] at hsearch
    obtain ⟨m₂, hpush', hlayout⟩ := exists_of_bind_eq hsearch
    rw [drive_keeps found_layoutStep hlayout, found_push hpush', found, List.map_map]
    rfl

end Numberer

/-- The loops of a graph are its natural loops, one for each target of a backedge. A numberer finds
them backedge by backedge, with an end to each of its walks, and its layout keeps them. -/
theorem natural_loops {g : Graph} (hbuilt : g.Built) :
    ((g.loops.map Loop.header).Nodup ∧
      ∀ h, h ∈ g.loops.map Loop.header ↔ ∃ u, ⟨u, h⟩ ∈ g.backedges) ∧
    (∀ l ∈ g.loops, l.members.toList.Nodup ∧ ∀ x, x ∈ l.members.toList ↔
      x = l.header ∨ ∃ u, ⟨u, l.header⟩ ∈ g.backedges ∧ ∃ w : List BlockIndex,
        w.head? = some x ∧ w.getLast? = some u ∧ w.IsChain g.Arc ∧ l.header ∉ w) ∧
    (∀ num, g.numbering = .ok num → num.loops = g.loops) ∧
    (0 < g.blockCount →
      (∃ m, Attempt.Gives (fun fuel ↦ (Numberer.start g.blockCount).push g 0 .unvisited >>=
          Numberer.drive (Numberer.discoverStep g) fuel) (.ok m) ∧
        m.backedges.toList = g.backedges ∧ m.loopCount = g.loops.length ∧
        (∀ b < g.blockCount, m.loopOf[b]? = some (g.loops.findIdx? (·.header = b))) ∧
        ∀ fuel, g.blockCount ≤ fuel → m.backedges.toList.foldlM
            (Numberer.gather g fuel m.loopOf) (Array.replicate m.loopCount .blank)
          = pure (g.loops.map Numberer.LoopRecord.fresh).toArray) ∧
      ∀ m, Attempt.Gives (Numberer.search g) (.ok m) → m.found = g.loops.map some) := by
  have hg := hbuilt.sound
  refine ⟨⟨Graph.nodup_header_loops hg, fun h ↦ ?_⟩, fun l hl ↦ ?_, fun num hnum ↦ ?_,
    fun hpos ↦ ⟨Numberer.exists_gathered hg hpos, fun m ↦ Numberer.found_of_search hg hpos⟩⟩
  · rw [Graph.map_header_loops hg, Graph.mem_headers]
  · obtain ⟨-, htidy, hmembers⟩ := Graph.loops_spec hg hl
    refine ⟨htidy.nodup, fun x ↦ ?_⟩
    rw [htidy.mem_iff, hmembers, Graph.inLoop_iff_walk]
  · rw [Graph.numbering_eq] at hnum
    obtain ⟨order, -, hnum⟩ := exists_of_bind_ok hnum
    split at hnum
    · cases hnum
    · cases hnum
      rfl

/-- The natural loops of a graph in which loops overlap. The one of block 6 goes around by the
entry. -/
theorem natural_loops_tangle :
    Graph.tangle.loops.map Loop.header = [6, 3, 2] ∧ (∃ u, ⟨u, 6⟩ ∈ Graph.tangle.backedges) ∧
      ∃ l ∈ Graph.tangle.loops, 0 ∈ l.members.toList ∧ l.members.toList.Nodup ∧
        ∃ u, ⟨u, l.header⟩ ∈ Graph.tangle.backedges ∧ ∃ w : List BlockIndex,
          w.head? = some 0 ∧ w.getLast? = some u ∧ w.IsChain Graph.tangle.Arc ∧ l.header ∉ w := by
  have hbuilt : Graph.tangle.Built := Sketch.graph_built
    ⟨[[2, 1], [7], [3, 1], [6, 4], [5, 1], [6, 3], [5, 7], [2]], [2, 3, 6]⟩ .empty rfl
  obtain ⟨⟨-, hheaders⟩, hmembers, -⟩ := natural_loops hbuilt
  have hmap : Graph.tangle.loops.map Loop.header = [6, 3, 2] := by decide
  obtain ⟨l, hl, hzero⟩ : ∃ l ∈ Graph.tangle.loops, 0 ∈ l.members.toList := by decide
  obtain ⟨hnodup, hmem⟩ := hmembers l hl
  have hheader : l.header ∈ [6, 3, 2] := hmap ▸ List.mem_map_of_mem hl
  refine ⟨hmap, (hheaders 6).mp (by rw [hmap]; decide), l, hl, hzero, hnodup, ?_⟩
  refine ((hmem 0).mp hzero).resolve_left fun heq ↦ ?_
  rw [← heq] at hheader
  exact absurd hheader (by decide)

end Flowgraph
