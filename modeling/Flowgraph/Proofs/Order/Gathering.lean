import Flowgraph.Proofs.Order.Threads

/-!
# The loops of a numberer

A numberer collects the members of the loops backedge by backedge, in the order in which these were
found, while a loop is defined from its own backedges alone. Between two backedges the record of
each header holds the loop that its backedges so far make up, which is what both have in common.
-/

namespace Flowgraph

/-! ## Headers

The headers are different, so that a loop can be found by its header and has one number. -/

private theorem nodup_eraseDups (l : List Nat) : l.eraseDups.Nodup := by
  induction l using List.reverseRecOn with
  | nil => exact List.nodup_nil
  | append_singleton l a ih =>
    rw [eraseDups_concat]
    split
    · exact ih
    · rename_i ha
      rw [← List.concat_eq_append, List.nodup_concat]
      exact ⟨by rwa [List.mem_eraseDups], ih⟩

namespace Graph

variable {g : Graph}

theorem nodup_headers (g : Graph) : g.headers.Nodup := nodup_eraseDups _

/-- The members that some of its backedges bring into a loop, with nothing left to walk from. -/
theorem foldl_grow_start (hg : g.Sound) {h : BlockIndex} {es : List Backedge}
    (hh : h < g.blockCount) (hes : es ⊆ g.backedges) :
    let loop := (es.filter (·.header = h)).foldl (Loop.grow g) (.start g.blockCount h)
    loop.header = h ∧ Loop.Flooding g h loop.members [] := by
  obtain ⟨hheader, hflood, -⟩ := Loop.foldl_grow_spec hg (es.filter (·.header = h))
    (Loop.start g.blockCount h) (fun e he ↦ by
      obtain ⟨he, heq⟩ := List.mem_filter.mp he
      exact ⟨hes he, of_decide_eq_true heq⟩) (Loop.flooding_start hh)
  exact ⟨hheader, hflood⟩

theorem header_lt (hg : g.Sound) {h : BlockIndex} (hh : h ∈ g.headers) : h < g.blockCount := by
  obtain ⟨u, hu⟩ := mem_headers.mp hh
  exact (hg.arc_lt (arc_of_backedge hg hu)).2

/-- The loops have the headers in their order. -/
theorem map_header_loops (hg : g.Sound) : g.loops.map Loop.header = g.headers := by
  rw [loops, List.map_map]
  refine (List.map_congr_left fun h hh ↦ ?_).trans (List.map_id _)
  exact (foldl_grow_start hg (header_lt hg hh) (List.Subset.refl _)).1

theorem nodup_header_loops (hg : g.Sound) : (g.loops.map Loop.header).Nodup := by
  rw [map_header_loops hg]
  exact nodup_headers g

/-- The number of a loop is the position of its header. -/
theorem findIdx?_loops (hg : g.Sound) (b : BlockIndex) :
    g.loops.findIdx? (·.header = b) = g.headers.findIdx? (· = b) := by
  rw [← map_header_loops hg, List.findIdx?_map]
  rfl

end Graph

namespace Numberer

variable {g : Graph} {h : BlockIndex}

/-! ## Walking backward

The backward walk of a numberer has a turn for every block, and takes the same blocks in the same
order as the walk that defines the loop. -/

private theorem drain_eq (hg : g.Sound) : ∀ {steps fuel : Nat} {members : IndexSet}
    {pending : List BlockIndex}, Loop.Flooding g h members pending →
      g.blockCount + pending.length ≤ members.size + steps → steps ≤ fuel →
      drain g h fuel (members, pending) = pure (Loop.flood g h steps (members, pending)) := by
  intro steps
  induction steps with
  | zero =>
    intro fuel members pending hm hsteps _
    cases hm.pending_eq_nil hsteps
    cases fuel <;> rfl
  | succ steps ih =>
    intro fuel members pending hm hsteps hfuel
    cases pending with
    | nil => cases fuel <;> rfl
    | cons b pending =>
      obtain ⟨fuel, rfl⟩ := Nat.exists_eq_add_of_le' (Nat.le_of_add_left_le hfuel)
      rw [drain, Loop.flood]
      cases hwalk : ((g.predecessors b).reverse.filter (· ≠ h)).foldl Loop.reach
          (members, pending) with
      | mk members' pending' =>
        obtain ⟨hm', hsize, -⟩ := hm.walk hg hwalk
        rw [List.length_cons] at hsteps
        exact ih hm' (by omega) (by omega)

/-! ## Backedge by backedge

`gathered` is what the records hold after some of the backedges. After all of them they hold the
loops. -/

/-- What is recorded about a header once the backedges `es` were looked at. -/
def gathered (g : Graph) (es : List Backedge) (h : BlockIndex) : LoopRecord :=
  let own := es.filter (·.header = h)
  { LoopRecord.blank with
    loop? := if own.isEmpty then none
      else some (own.foldl (Loop.grow g) (.start g.blockCount h)) }

private theorem gathered_getD (g : Graph) (es : List Backedge) (h : BlockIndex) :
    (gathered g es h).loop?.getD (.start g.blockCount h)
      = (es.filter (·.header = h)).foldl (Loop.grow g) (.start g.blockCount h) := by
  rw [gathered]
  cases es.filter (·.header = h) <;> rfl

private theorem gathered_concat (g : Graph) (es : List Backedge) (e : Backedge) :
    gathered g (es ++ [e]) e.header = { gathered g es e.header with
      loop? := some (Loop.grow g
        ((es.filter (·.header = e.header)).foldl (Loop.grow g) (.start g.blockCount e.header)) e) }
    := by
  simp [gathered, List.filter_append]

private theorem gathered_concat_of_ne (g : Graph) (es : List Backedge) {e : Backedge}
    (h : BlockIndex) (hne : h ≠ e.header) : gathered g (es ++ [e]) h = gathered g es h := by
  simp [gathered, List.filter_append, hne.symm]

private theorem setIfInBounds_map_headers {hs : List BlockIndex} {f f' : BlockIndex → LoopRecord}
    {l : Nat} (hnd : hs.Nodup) (hl : hs[l]? = some h) (hother : ∀ c, c ≠ h → f' c = f c) :
    (hs.map f).toArray.setIfInBounds l (f' h) = (hs.map f').toArray := by
  have hlt := (List.getElem?_eq_some_iff.mp hl).1
  refine Array.ext_getElem? fun j ↦ ?_
  rw [getElem?_setIfInBounds_of_lt (by simpa using hlt)]
  simp only [List.getElem?_toArray, List.getElem?_map]
  split
  · rename_i hj
    rw [hj, hl]
    rfl
  · rename_i hj
    cases hc : hs[j]? with
    | none => rfl
    | some c =>
      refine congrArg some (hother c fun heq ↦ hj ?_).symm
      exact ((List.getElem?_inj hlt hnd).mp (hl.trans (heq ▸ hc).symm)).symm

private theorem gather_gathered (hg : g.Sound) {loopOf : Array (Option Nat)}
    (hloopOf : ∀ b < g.blockCount, loopOf[b]? = some (g.headers.findIdx? (· = b)))
    {es : List Backedge} {e : Backedge} (hes : es ⊆ g.backedges) (he : e ∈ g.backedges) {fuel : Nat}
    (hfuel : g.blockCount ≤ fuel) :
    gather g fuel loopOf (g.headers.map (gathered g es)).toArray e
      = pure (g.headers.map (gathered g (es ++ [e]))).toArray := by
  have hmem : e.header ∈ g.headers := Graph.mem_headers.mpr ⟨e.source, he⟩
  have hlt := Graph.header_lt hg hmem
  obtain ⟨hheader, hflood⟩ := Graph.foldl_grow_start hg hlt hes
  obtain ⟨l, hl⟩ : ∃ l, g.headers.findIdx? (· = e.header) = some l :=
    Option.ne_none_iff_exists'.mp fun hnone ↦ findIdx?_eq_none.mp hnone hmem
  have hget : g.headers[l]? = some e.header := by
    obtain ⟨hlen, heq, -⟩ := List.findIdx?_eq_some_iff_getElem.mp hl
    rw [List.getElem?_eq_getElem hlen, of_decide_eq_true heq]
  have hrecord : (g.headers.map (gathered g es)).toArray[l]? = some (gathered g es e.header) := by
    rw [List.getElem?_toArray, List.getElem?_map, hget]
    rfl
  have hwrite : ∀ loop, Loop.grow g ((es.filter (·.header = e.header)).foldl (Loop.grow g)
      (.start g.blockCount e.header)) e = loop →
      Attempt.write (g.headers.map (gathered g es)).toArray l
        { gathered g es e.header with loop? := some loop }
        = pure (g.headers.map (gathered g (es ++ [e]))).toArray := by
    rintro loop rfl
    rw [Attempt.write_of_lt (Array.getElem?_eq_some_iff.mp hrecord).1, ← gathered_concat,
      setIfInBounds_map_headers (Graph.nodup_headers g) hget
        fun c hne ↦ gathered_concat_of_ne g es c hne]
  simp only [gather, Attempt.read_of_some (hloopOf _ hlt), hl, pure_bind,
    Attempt.read_of_some hrecord, gathered_getD]
  generalize (es.filter (·.header = e.header)).foldl (Loop.grow g) (.start g.blockCount e.header)
    = loop at hheader hflood hwrite
  split
  · rename_i hself
    exact hwrite loop (by rw [Loop.grow, if_pos (hself.trans hheader.symm)])
  · rename_i hne
    cases hreach : Loop.reach (loop.members, []) e.source with
    | mk members pending =>
      obtain ⟨hm, hsteps, -⟩ := Loop.Flooding.reach_source hg he hheader.symm
        (hheader.symm ▸ hflood) (hheader.symm ▸ hne) hreach
      rw [drain_eq hg (hheader ▸ hm) hsteps hfuel, pure_bind]
      refine hwrite _ ?_
      rw [Loop.grow, if_neg (hheader.symm ▸ hne), hreach, hheader]

private theorem foldlM_gather (hg : g.Sound) {loopOf : Array (Option Nat)}
    (hloopOf : ∀ b < g.blockCount, loopOf[b]? = some (g.headers.findIdx? (· = b))) {fuel : Nat}
    (hfuel : g.blockCount ≤ fuel) : ∀ (es' : List Backedge) {es : List Backedge},
    es ++ es' ⊆ g.backedges →
    es'.foldlM (gather g fuel loopOf) (g.headers.map (gathered g es)).toArray
      = pure (g.headers.map (gathered g (es ++ es'))).toArray
  | [], es, _ => by rw [List.foldlM_nil, List.append_nil]
  | e :: es', es, hes => by
    have hes' := List.append_subset.mp hes
    rw [List.foldlM_cons, gather_gathered hg hloopOf hes'.1 (hes'.2 List.mem_cons_self) hfuel,
      pure_bind, foldlM_gather hg hloopOf hfuel es' (by simpa using hes), List.append_assoc,
      List.singleton_append]

/-- What is recorded about a loop when the layout starts. -/
def LoopRecord.fresh (loop : Loop) : LoopRecord := { LoopRecord.blank with loop? := some loop }

/-- All backedges together bring the members of the loops into the records. -/
theorem gather_backedges (hg : g.Sound) {loopOf : Array (Option Nat)}
    (hloopOf : ∀ b < g.blockCount, loopOf[b]? = some (g.headers.findIdx? (· = b))) {fuel : Nat}
    (hfuel : g.blockCount ≤ fuel) :
    g.backedges.foldlM (gather g fuel loopOf) (Array.replicate g.headers.length .blank)
      = pure (g.loops.map LoopRecord.fresh).toArray := by
  have hstart : Array.replicate g.headers.length LoopRecord.blank
      = (g.headers.map (gathered g [])).toArray := by
    rw [← List.toArray_replicate, ← List.map_const']
    rfl
  rw [hstart, foldlM_gather hg hloopOf hfuel g.backedges (List.Subset.refl _), List.nil_append,
    Graph.loops, List.map_map]
  congr 2
  refine List.map_congr_left fun h hh ↦ ?_
  obtain ⟨u, hu⟩ := Graph.mem_headers.mp hh
  have hne : g.backedges.filter (·.header = h) ≠ [] :=
    List.ne_nil_of_mem (List.mem_filter.mpr ⟨hu, decide_eq_true rfl⟩)
  rw [gathered, Function.comp, LoopRecord.fresh, if_neg (by simpa using hne)]

end Numberer

end Flowgraph
