import Flowgraph.Proofs.Graph.Reordering
import Flowgraph.Proofs.Order.Fitness

/-!
# The special order under other names

The special reverse postorder depends on where edges lead and in which order they leave and enter a
block, but not on what the blocks are called. Renumbering a graph keeps all of that, so that the
order of the renumbered graph is the renumbered order.

Each stage of the ordering is run on both graphs at once. `Mirrors` says of the two states that they
differ in the names of blocks only, where a loop is named by its number, which is the same in both
graphs. The lists in a state are compared as lists: the walk back through a loop and the parked
edges would be followed in another order if a set took the place of a list.
-/

namespace Flowgraph

/-! ## Sets

Two sets mirror each other if their elements stand in the same order under the two names. Insertion
keeps this if the names tell apart what is in the sets. -/

/-- A set holds the elements of another one under their new names, in the same order. -/
structure IndexSet.Mirrors (n : Nat) (β : Nat → Nat) (s s' : IndexSet) : Prop where
  capacity_eq : s.capacity = n
  capacity_eq' : s'.capacity = n
  toList_eq : s'.toList = s.toList.map β
  contains : ∀ b < n, s'.contains (β b) = s.contains b

/-- New names for the numbers below `n`, which tell them apart. -/
structure Naming (n : Nat) (β : Nat → Nat) : Prop where
  lt : ∀ {b}, b < n → β b < n
  inj : ∀ {b c}, b < n → c < n → β b = β c → b = c

theorem Naming.eq_iff {n : Nat} {β : Nat → Nat} (hβ : Naming n β) {b c : Nat} (hb : b < n)
    (hc : c < n) : β b = β c ↔ b = c := ⟨hβ.inj hb hc, congrArg β⟩

private theorem Naming.eraseDups_map {n : Nat} {β : Nat → Nat} (hβ : Naming n β) : ∀ {l : List Nat},
    (∀ b ∈ l, b < n) → (l.map β).eraseDups = l.eraseDups.map β
  | [], _ => rfl
  | b :: l, hl => by
    rw [List.forall_mem_cons] at hl
    have hfilter : (l.map β).filter (fun c ↦ !c == β b) = (l.filter fun c ↦ !c == b).map β := by
      rw [List.filter_map]
      congr 1
      refine List.filter_congr fun c hc ↦ ?_
      rw [Function.comp_apply, Bool.eq_iff_iff]
      simp [hβ.eq_iff (hl.2 c hc) hl.1]
    rw [List.map_cons, List.eraseDups_cons, List.eraseDups_cons, hfilter, List.map_cons,
      eraseDups_map hβ fun c hc ↦ hl.2 c (List.mem_filter.mp hc).1]
termination_by l => l.length
decreasing_by exact Nat.lt_succ_of_le (List.length_filter_le _ _)

namespace IndexSet

variable {n : Nat} {β : Nat → Nat} {s s' : IndexSet}

private theorem mirrors_empty (n : Nat) (β : Nat → Nat) : Mirrors n β (empty n) (empty n) where
  capacity_eq := capacity_empty n
  capacity_eq' := capacity_empty n
  toList_eq := rfl
  contains b hb := by
    have hnone : ∀ k, (empty n).contains k = false := fun k ↦ by
      rw [← Bool.not_eq_true]
      exact fun hk ↦ by cases mem_of_contains hk
    rw [hnone, hnone]

theorem Mirrors.insert (hβ : Naming n β) (h : Mirrors n β s s') {k : Nat} (hk : k < n) :
    Mirrors n β (s.insert k) (s'.insert (β k)) := by
  have hcap : k < s.capacity := h.capacity_eq ▸ hk
  have hcap' : β k < s'.capacity := h.capacity_eq' ▸ hβ.lt hk
  refine ⟨by rw [capacity_insert, h.capacity_eq], by rw [capacity_insert, h.capacity_eq'], ?_,
    fun b hb ↦ ?_⟩
  · by_cases hc : s.contains k = true
    · rw [insert_of_contains hc, insert_of_contains ((h.contains k hk).trans hc), h.toList_eq]
    · have hnew : s.contains k = false := by simpa using hc
      rw [insert_of_new hnew hcap, insert_of_new ((h.contains k hk).trans hnew) hcap']
      have := h.toList_eq
      rw [toList, toList] at this
      simp [toList, this]
  · rw [Bool.eq_iff_iff, contains_insert hcap, contains_insert hcap', hβ.eq_iff hb hk,
      h.contains b hb]

end IndexSet

/-! ## Loops

The walk backward takes the same steps in both graphs, because predecessors are listed in the same
order. So loops have the same members and the same numbers. -/

namespace Loop

variable {n : Nat} {β : Nat → Nat}

/-- A loop under other names. -/
structure Mirrors (n : Nat) (β : Nat → Nat) (l l' : Loop) : Prop where
  header_lt : l.header < n
  header_eq : l'.header = β l.header
  members : l.members.Mirrors n β l'.members

private theorem mirrors_start (hβ : Naming n β) {h : BlockIndex} (hh : h < n) :
    Mirrors n β (start n h) (start n (β h)) :=
  ⟨hh, rfl, (IndexSet.mirrors_empty n β).insert hβ hh⟩

/-- What was reached and what is still to be walked from, under other names. -/
structure Walking (n : Nat) (β : Nat → Nat) (s s' : IndexSet × List BlockIndex) : Prop where
  members : s.1.Mirrors n β s'.1
  pending_lt : ∀ b ∈ s.2, b < n
  pending_eq : s'.2 = s.2.map β

theorem Walking.reach (hβ : Naming n β) {s s' : IndexSet × List BlockIndex}
    (h : Walking n β s s') {b : BlockIndex} (hb : b < n) :
    Walking n β (reach s b) (reach s' (β b)) := by
  rw [Loop.reach, Loop.reach, h.members.contains b hb]
  split
  · exact h
  · exact ⟨h.members.insert hβ hb, List.forall_mem_cons.mpr ⟨hb, h.pending_lt⟩,
      by rw [h.pending_eq, List.map_cons]⟩

private theorem Walking.foldl_reach (hβ : Naming n β) : ∀ {bs : List BlockIndex}
    {s s' : IndexSet × List BlockIndex}, (∀ b ∈ bs, b < n) → Walking n β s s' →
      Walking n β (bs.foldl Loop.reach s) ((bs.map β).foldl Loop.reach s')
  | [], _, _, _, h => h
  | b :: bs, s, s', hbs, h => by
    rw [List.forall_mem_cons] at hbs
    rw [List.map_cons, List.foldl_cons, List.foldl_cons]
    exact foldl_reach hβ hbs.2 (h.reach hβ hbs.1)

end Loop

namespace Graph.Renamed

variable {g g' : Graph} {β : BlockIndex → BlockIndex} {ω : OpIndex → OpIndex}
  (h : g.Renamed g' β ω) (hg : g.Sound)

include h

theorem naming : Naming g.blockCount β := ⟨h.block_lt, h.block_inj⟩

include hg

private theorem filter_predecessors_eq {b header : BlockIndex} (hb : b < g.blockCount)
    (hheader : header < g.blockCount) :
    (g'.predecessors (β b)).reverse.filter (· ≠ β header)
      = ((g.predecessors b).reverse.filter (· ≠ header)).map β := by
  rw [h.predecessors_eq hg hb, ← List.map_reverse, List.filter_map]
  congr 1
  refine List.filter_congr fun p hp ↦ ?_
  have hlt := (hg.edge_lt (mem_predecessors.mp (List.mem_reverse.mp hp))).1
  simp only [Function.comp_apply, ne_eq, decide_not, h.naming.eq_iff hlt hheader]

private theorem flood_mirrors {header : BlockIndex} (hheader : header < g.blockCount) :
    ∀ (steps : Nat) {s s' : IndexSet × List BlockIndex}, Loop.Walking g.blockCount β s s' →
      (Loop.flood g header steps s).Mirrors g.blockCount β (Loop.flood g' (β header) steps s')
  | 0, _, _, hs => hs.members
  | steps + 1, (m, []), (m', pending'), hs => by
    cases hs.pending_eq
    exact hs.members
  | steps + 1, (m, b :: pending), (m', pending'), hs => by
    cases hs.pending_eq
    have hlt := List.forall_mem_cons.mp hs.pending_lt
    rw [Loop.flood, Loop.flood, h.filter_predecessors_eq hg hlt.1 hheader]
    refine flood_mirrors hheader steps (Loop.Walking.foldl_reach h.naming (fun p hp ↦ ?_)
      ⟨hs.members, hlt.2, rfl⟩)
    have hp := List.mem_reverse.mp (List.mem_filter.mp hp).1
    exact (hg.edge_lt (mem_predecessors.mp hp)).1

private theorem grow_mirrors {l l' : Loop} (hl : l.Mirrors g.blockCount β l') {e : Backedge}
    (he : e.source < g.blockCount) :
    (Loop.grow g l e).Mirrors g.blockCount β (Loop.grow g' l' ⟨β e.source, β e.header⟩) := by
  rw [Loop.grow, Loop.grow, hl.header_eq]
  simp only [h.naming.eq_iff he hl.header_lt]
  split
  · exact hl
  · refine ⟨hl.header_lt, rfl, ?_⟩
    rw [h.blockCount_eq]
    exact h.flood_mirrors hg hl.header_lt _
      (Loop.Walking.reach h.naming ⟨hl.members, by simp, rfl⟩ he)

private theorem foldl_grow_mirrors : ∀ {es : List Backedge} {l l' : Loop},
    (∀ e ∈ es, e.source < g.blockCount) → l.Mirrors g.blockCount β l' →
      (es.foldl (Loop.grow g) l).Mirrors g.blockCount β
        ((es.map fun e ↦ ⟨β e.source, β e.header⟩).foldl (Loop.grow g') l')
  | [], _, _, _, hl => hl
  | e :: es, l, l', hes, hl => by
    rw [List.forall_mem_cons] at hes
    rw [List.map_cons, List.foldl_cons, List.foldl_cons]
    exact foldl_grow_mirrors hes.2 (h.grow_mirrors hg hl hes.1)

omit h in
theorem backedge_lt {e : Backedge} (he : e ∈ g.backedges) :
    e.source < g.blockCount ∧ e.header < g.blockCount := hg.arc_lt (arc_of_backedge hg he)

variable (hentry : β 0 = 0)

include hentry

theorem backedges_eq : g'.backedges = g.backedges.map fun e ↦ ⟨β e.source, β e.header⟩ :=
  (h.discovery_mirrors hg hentry).backedges

private theorem headers_eq : g'.headers = g.headers.map β := by
  have hlt : ∀ b ∈ g.backedges.map Backedge.header, b < g.blockCount := fun b hb ↦ by
    obtain ⟨e, he, rfl⟩ := List.mem_map.mp hb
    exact (backedge_lt hg he).2
  rw [headers, headers, h.backedges_eq hg hentry, List.map_map,
    ← h.naming.eraseDups_map hlt, List.map_map]
  rfl

private theorem loops_mirror : List.Forall₂ (Loop.Mirrors g.blockCount β) g.loops g'.loops := by
  rw [loops, loops, h.headers_eq hg hentry, List.map_map, List.forall₂_map_left_iff,
    List.forall₂_map_right_iff, List.forall₂_same]
  intro header hheader
  obtain ⟨u, hu⟩ := mem_headers.mp hheader
  have hlt := (backedge_lt hg hu).2
  have hfilter : g'.backedges.filter (·.header = β header)
      = (g.backedges.filter (·.header = header)).map fun e ↦ ⟨β e.source, β e.header⟩ := by
    rw [h.backedges_eq hg hentry, List.filter_map]
    congr 1
    refine List.filter_congr fun e he ↦ ?_
    simp only [Function.comp_apply, h.naming.eq_iff (backedge_lt hg he).2 hlt]
  rw [Function.comp_apply, hfilter, h.blockCount_eq]
  exact h.foldl_grow_mirrors hg (fun e he ↦ (backedge_lt hg (List.mem_filter.mp he).1).1)
    (Loop.mirrors_start h.naming hlt)

end Graph.Renamed

/-! ## The layout

Visiting, parking and leaving are done on both sides at once, with edges parked at loops of the same
number. -/

private theorem getElem?_of_forall₂ {α γ : Type} {R : α → γ → Prop} : ∀ {l : List α} {l' : List γ},
    List.Forall₂ R l l' → ∀ i : Nat, l[i]? = none ∧ l'[i]? = none ∨
      ∃ a b, l[i]? = some a ∧ l'[i]? = some b ∧ R a b
  | _, _, .nil, i => .inl ⟨by simp, by simp⟩
  | _, _, .cons h _, 0 => .inr ⟨_, _, rfl, rfl, h⟩
  | _, _, .cons _ ht, i + 1 => by
    rw [List.getElem?_cons_succ, List.getElem?_cons_succ]
    exact getElem?_of_forall₂ ht i

namespace Layout

/-- The states of two layouts that differ in the names of the `n` blocks. -/
structure Mirrors (n : Nat) (β : BlockIndex → BlockIndex) (s s' : Layout) : Prop where
  progress : ∀ b < n, s'.progress[β b]? = s.progress[b]?
  size_eq : s.progress.size = n
  size_eq' : s'.progress.size = n
  order : s'.order = s.order.map β
  openLoops : s'.openLoops = s.openLoops
  parked_lt : ∀ l, ∀ b ∈ s.parkedAt l, b < n
  parked : s'.parked.toList = s.parked.toList.map (List.map β)

variable {n : Nat} {β : BlockIndex → BlockIndex} {s s' : Layout} {loops loops' : List Loop}

theorem Mirrors.getElem?_parked (hs : Mirrors n β s s') (l : Nat) :
    s'.parked[l]? = s.parked[l]?.map (List.map β) := by
  rw [← Array.getElem?_toList, hs.parked, List.getElem?_map, Array.getElem?_toList]

private theorem Mirrors.parkedAt_eq (hs : Mirrors n β s s') (l : Nat) :
    s'.parkedAt l = (s.parkedAt l).map β := by
  rw [parkedAt, parkedAt, hs.getElem?_parked]
  cases s.parked[l]? <;> rfl

theorem Mirrors.mark (hβ : Naming n β) (hs : Mirrors n β s s') {b : BlockIndex} (hb : b < n)
    (p : Progress) : Mirrors n β (s.mark b p) (s'.mark (β b) p) where
  progress c hc := by
    have hlt : b < s.progress.size := hs.size_eq ▸ hb
    have hlt' : β b < s'.progress.size := hs.size_eq' ▸ hβ.lt hb
    rw [progress_mark hlt, progress_mark hlt', hs.progress c hc]
    simp only [hβ.eq_iff hc hb]
  size_eq := (size_mark _ _ _).trans hs.size_eq
  size_eq' := (size_mark _ _ _).trans hs.size_eq'
  order := hs.order
  openLoops := hs.openLoops
  parked_lt := hs.parked_lt
  parked := hs.parked

private theorem Mirrors.park (hs : Mirrors n β s s') {c : BlockIndex} (hc : c < n) (l : Nat) :
    Mirrors n β (s.park l c) (s'.park l (β c)) where
  progress := hs.progress
  size_eq := hs.size_eq
  size_eq' := hs.size_eq'
  order := hs.order
  openLoops := hs.openLoops
  parked_lt k b hb := by
    rw [parkedAt, Layout.park, Array.getElem?_modify] at hb
    have hold := hs.parked_lt k
    rw [parkedAt] at hold
    cases hk : s.parked[k]? with
    | none => simp [hk] at hb
    | some vs =>
      rw [hk] at hb hold
      split at hb
      · rcases List.mem_append.mp hb with hb | hb
        · exact hold b hb
        · exact List.mem_singleton.mp hb ▸ hc
      · exact hold b hb
  parked := by
    refine List.ext_getElem? fun k ↦ ?_
    rw [Layout.park, Layout.park, List.getElem?_map, Array.getElem?_toList, Array.getElem?_toList,
      Array.getElem?_modify, Array.getElem?_modify, hs.getElem?_parked]
    split
    · cases s.parked[k]? <;> simp
    · rfl

variable (hloops : List.Forall₂ (Loop.Mirrors n β) loops loops')

include hloops

private theorem Mirrors.follow {v v' : BlockIndex → Layout → Layout} {c : BlockIndex} (hc : c < n)
    (hv : ∀ {s s'}, Mirrors n β s s' → Mirrors n β (v c s) (v' (β c) s'))
    (hs : Mirrors n β s s') : Mirrors n β (follow loops v s c) (follow loops' v' s' (β c)) := by
  rw [Layout.follow, Layout.follow, hs.progress c hc, hs.openLoops]
  rcases s.progress[c]? with _ | _ | _ | _ <;> try exact hs
  rcases s.openLoops with _ | ⟨l, _⟩
  · exact hv hs
  · have hinside : loops'[l]?.map (·.members.contains (β c))
        = loops[l]?.map (·.members.contains c) := by
      rcases getElem?_of_forall₂ hloops l with ⟨h, h'⟩ | ⟨loop, loop', h, h', hmirror⟩
      · rw [h, h']
        rfl
      · rw [h, h', Option.map_some, Option.map_some, hmirror.members.contains c hc]
    simp only [hinside]
    split
    · exact hv hs
    · exact hs.park hc l

private theorem Mirrors.foldl_follow {v v' : BlockIndex → Layout → Layout}
    (hv : ∀ {c s s'}, c < n → Mirrors n β s s' → Mirrors n β (v c s) (v' (β c) s')) :
    ∀ {cs : List BlockIndex} {s s' : Layout}, (∀ c ∈ cs, c < n) → Mirrors n β s s' →
      Mirrors n β (cs.foldl (Layout.follow loops v) s)
        ((cs.map β).foldl (Layout.follow loops' v') s')
  | [], _, _, _, hs => hs
  | c :: cs, s, s', hcs, hs => by
    rw [List.forall_mem_cons] at hcs
    rw [List.map_cons, List.foldl_cons, List.foldl_cons]
    exact foldl_follow hv hcs.2 (hs.follow hloops hcs.1 (hv hcs.1))

private theorem findIdx?_header_eq (hβ : Naming n β) {c : BlockIndex} (hc : c < n) :
    loops'.findIdx? (·.header = β c) = loops.findIdx? (·.header = c) := by
  induction hloops with
  | nil => rfl
  | cons h _ ih =>
    rw [List.findIdx?_cons, List.findIdx?_cons, ih, h.header_eq]
    simp only [hβ.eq_iff h.header_lt hc]

omit hloops

variable (hβ : Naming n β) {c : BlockIndex} (hc : c < n)

include hβ hc

private theorem Mirrors.put (hs : Mirrors n β s s') : Mirrors n β (s.put c) (s'.put (β c)) :=
  { hs.mark hβ hc .done with order := congrArg (β c :: ·) hs.order }

private theorem Mirrors.enter (hs : Mirrors n β s s') (l : Nat) :
    Mirrors n β (s.enter c l) (s'.enter (β c) l) :=
  { hs.mark hβ hc .active with order := rfl, openLoops := congrArg (l :: ·) hs.openLoops }

private theorem Mirrors.leave {inside inside' : Layout} (hs : Mirrors n β s s')
    (hinside : Mirrors n β inside inside') :
    Mirrors n β (s.leave inside c) (s'.leave inside' (β c)) :=
  { hinside.mark hβ hc .done with order := hs.order, openLoops := hs.openLoops }

omit hβ hc in
private theorem Mirrors.join {inside inside' outside outside' : Layout}
    (hinside : Mirrors n β inside inside') (houtside : Mirrors n β outside outside')
    (c : BlockIndex) : Mirrors n β (join inside outside c) (join inside' outside' (β c)) :=
  { houtside with order := by simp [Layout.join, hinside.order, houtside.order] }

end Layout

namespace Graph.Renamed

variable {g g' : Graph} {β : BlockIndex → BlockIndex} {ω : OpIndex → OpIndex}
  (h : g.Renamed g' β ω) (hg : g.Sound) {loops loops' : List Loop}
  (hloops : List.Forall₂ (Loop.Mirrors g.blockCount β) loops loops')

include h hg hloops

private theorem visit_mirrors : ∀ (depth : Nat) {c : BlockIndex} {s s' : Layout}, c < g.blockCount →
    Layout.Mirrors g.blockCount β s s' → Layout.Mirrors g.blockCount β
      (Layout.visit g loops depth c s) (Layout.visit g' loops' depth (β c) s')
  | 0, _, _, _, _, hs => hs
  | depth + 1, c, s, s', hc, hs => by
    have hfold : ∀ {cs : List BlockIndex} {s s' : Layout}, (∀ c ∈ cs, c < g.blockCount) →
        Layout.Mirrors g.blockCount β s s' → _ :=
      Layout.Mirrors.foldl_follow hloops (visit_mirrors depth)
    have hsucc : ∀ d ∈ g.successors c, d < g.blockCount := fun d hd ↦ hg.target_lt hd
    have hnumber := Layout.findIdx?_header_eq hloops h.naming hc
    cases hl : loops.findIdx? (·.header = c) with
    | none =>
      have hne : ∀ {ls : List Loop} {b : BlockIndex}, ls.findIdx? (·.header = b) = none →
          ∀ loop ∈ ls, loop.header ≠ b := fun hnone loop hloop heq ↦ by
        simpa [heq] using List.findIdx?_eq_none_iff.mp hnone loop hloop
      rw [Layout.visit_block depth (hne hl), Layout.visit_block depth (hne (hnumber.trans hl)),
        h.successors_eq hg hc]
      exact (hfold hsucc (hs.mark h.naming hc .active)).put h.naming hc
    | some l =>
      rw [Layout.visit_loop depth hl, Layout.visit_loop depth (hnumber.trans hl),
        h.successors_eq hg hc]
      have hinside := hfold hsucc (hs.enter h.naming hc l)
      have houtside := hfold (hinside.parked_lt l) (hs.leave h.naming hc hinside)
      rw [← hinside.parkedAt_eq] at houtside
      exact hinside.join houtside c

variable (hentry : β 0 = 0)

include hentry

private theorem layout_eq : g'.layout loops' = (g.layout loops).map (List.map β) := by
  have hany : loops'.any (·.header = 0) = loops.any (·.header = 0) := by
    clear hg
    induction hloops with
    | nil => rfl
    | cons hl _ ih =>
      have hzero := h.naming.eq_iff hl.header_lt (Nat.zero_lt_of_lt hl.header_lt)
      rw [hentry] at hzero
      rw [List.any_cons, List.any_cons, ih, hl.header_eq]
      simp only [hzero]
  have hstart : Layout.Mirrors g.blockCount β (.start g.blockCount loops.length)
      (.start g.blockCount loops'.length) := by
    refine ⟨fun b hb ↦ ?_, Array.size_replicate, Array.size_replicate, rfl, rfl,
      fun l b hb ↦ ?_, ?_⟩
    · simp only [Layout.start, Array.getElem?_replicate, if_pos hb, if_pos (h.block_lt hb)]
    · rw [Layout.parkedAt, Layout.start, Array.getElem?_replicate] at hb
      split at hb <;> cases hb
    · simp [Layout.start, hloops.length_eq]
  rw [layout, layout, hany, h.blockCount_eq]
  split
  · rfl
  · refine congrArg Except.ok ?_
    rcases Nat.eq_zero_or_pos g.blockCount with hzero | hpos
    · rw [hzero]
      rfl
    · have hvisit := h.visit_mirrors hg hloops g.blockCount hpos hstart
      rw [hentry] at hvisit
      exact hvisit.order

omit hloops in
private theorem numbering_mirrors {num : Numbering} (hnum : g.numbering = .ok num) :
    ∃ num', g'.numbering = .ok num' ∧ num'.order = num.order.map β ∧
      List.Forall₂ (Loop.Mirrors g.blockCount β) num.loops num'.loops := by
  have hloops := h.loops_mirror hg hentry
  have hempty : g'.loops.isEmpty = g.loops.isEmpty := by
    rw [Bool.eq_iff_iff, List.isEmpty_iff_length_eq_zero, List.isEmpty_iff_length_eq_zero,
      hloops.length_eq]
  rw [numbering_eq] at hnum ⊢
  obtain ⟨order, horder, hnum⟩ := exists_of_bind_ok hnum
  have horder' : (if g'.loops.isEmpty then .ok g'.discovery.order else g'.layout g'.loops)
      = .ok (order.map β) := by
    rw [hempty, h.layout_eq hg hloops hentry, (h.discovery_mirrors hg hentry).order]
    split_ifs at horder ⊢
    · cases horder
      rfl
    · rw [horder]
      rfl
  split at hnum
  · cases hnum
  · rename_i hlen
    cases hnum
    refine ⟨⟨order.map β, g'.loops⟩, ?_, rfl, hloops⟩
    rw [horder', ok_bind, if_neg (by rwa [List.length_map, h.blockCount_eq])]
    rfl

end Graph.Renamed

/-! ## Renumbering

A renumbered graph is a renamed one, whose order is the renamed order. Renumbering by the order
itself makes it the identity. -/

namespace Graph

variable {g g' : Graph} {perm : List BlockIndex}

private theorem idxOf_zero_of_head? (hlt : ∀ b ∈ perm, b < g.blockCount)
    (hfirst : perm.head? = Graph.entry? g) : perm.idxOf 0 = 0 := by
  cases perm with
  | nil => rfl
  | cons b perm =>
    have hpos := Nat.zero_lt_of_lt (hlt b List.mem_cons_self)
    rw [ entry?, if_neg (by simpa [blockCount, Nat.pos_iff_ne_zero] using hpos)] at hfirst
    cases hfirst
    exact List.idxOf_cons_self

/-- The loops of two numberings correspond: each pair has headers and lists of members that are the
same up to the new numbers of the blocks. -/
def SameLoops (perm : List BlockIndex) (loops loops' : List Loop) : Prop :=
  List.Forall₂ (fun l l' ↦ l'.header = perm.idxOf l.header ∧
    l'.members.toList = l.members.toList.map perm.idxOf) loops loops'

/-- In a graph whose blocks can all be reached and whose entry no edge enters, the special reverse
postorder and the loops do not depend on the numbers of the blocks. Once the blocks are renumbered
in this order, the order is that of their numbers. -/
theorem numbering_of_reorder (hbuilt : g.Built) (hreach : ∀ b < g.blockCount, g.Reachable b)
    (hentry : ∀ u, ¬g.Arc u 0) (hval : g.ValuesExist) :
    ∃ num, g.numbering = .ok num ∧ num.order.Perm (List.range g.blockCount) ∧
      num.order.head? = Graph.entry? g ∧
      (∀ perm, perm.Perm (List.range g.blockCount) → perm.head? = Graph.entry? g →
        (g.bound = none → ∃ g', g.reorder perm = .ok g') ∧
        ∀ g', g.reorder perm = .ok g' → ∃ num', g'.numbering = .ok num' ∧
          num'.order = num.order.map perm.idxOf ∧ SameLoops perm num.loops num'.loops) ∧
      ∀ g', g.reorder num.order = .ok g' → g'.specialOrder = .ok (List.range g'.blockCount) := by
  have hg := hbuilt.sound
  obtain ⟨num, hnum, -, hperm, hhead, -⟩ := exists_numbering hg hreach hentry
  have hmirror : ∀ {perm}, perm.head? = Graph.entry? g → ∀ {g'}, g.reorder perm = .ok g' →
      ∃ num', g'.numbering = .ok num' ∧ num'.order = num.order.map perm.idxOf ∧
        SameLoops perm num.loops num'.loops := by
    intro perm hfirst g' h
    have hlt : ∀ b ∈ perm, b < g.blockCount := fun b hb ↦
      List.mem_range.mp ((of_reorder_ok hg h).2.1.mem_iff.mp hb)
    obtain ⟨num', hnum', horder, hloops⟩ := (reorder_renamed hg h).numbering_mirrors hg
      (idxOf_zero_of_head? hlt hfirst) hnum
    exact ⟨num', hnum', horder, hloops.imp fun l l' hl ↦ ⟨hl.header_eq, hl.members.toList_eq⟩⟩
  refine ⟨num, hnum, hperm, hhead, fun perm hperm hfirst ↦
    ⟨fun hb ↦ ⟨_, reorder_of_perm hg hb hperm hval⟩, fun g' h ↦ hmirror hfirst h⟩, fun g' h ↦ ?_⟩
  obtain ⟨num', hnum', horder, -⟩ := hmirror hhead h
  rw [specialOrder, hnum', ok_bind, horder, map_idxOf_self (hperm.nodup_iff.mpr List.nodup_range),
    hperm.length_eq, List.length_range, (reorder_renamed hg h).blockCount_eq]
  rfl

theorem numbering_of_reorder_sampleLoop :
    ∃ g' num num', sampleLoop.reorder [0, 3, 1, 2] = .ok g' ∧ sampleLoop.numbering = .ok num ∧
      g'.numbering = .ok num' ∧ num'.order = num.order.map [0, 3, 1, 2].idxOf ∧
      SameLoops [0, 3, 1, 2] num.loops num'.loops := by
  have hbuilt : sampleLoop.Built :=
    Sketch.graph_built ⟨[[1], [2, 3], [1], []], [1]⟩ .empty rfl
  have hcount : sampleLoop.blockCount = 4 := rfl
  have horder : ∀ b < 4, b ∈ sampleLoop.discovery.order := by decide
  obtain ⟨num, hnum, -, -, hperms, -⟩ := numbering_of_reorder hbuilt
    (fun b hb ↦ (mem_discovery_iff hbuilt.sound (by decide)).mp (horder b (hcount ▸ hb)))
    (fun u hu ↦ by
      have := hbuilt.sound.mem_predecessors_iff.mpr hu
      exact absurd this (by rw [show sampleLoop.predecessors 0 = [] from rfl]; simp))
    (fun hop ↦ ((violations_eq_nil.mp (by decide)).referring hop).value_lt)
  obtain ⟨hexists, hsame⟩ := hperms [0, 3, 1, 2] (by decide) rfl
  obtain ⟨g', hg'⟩ := hexists rfl
  obtain ⟨num', hnum', horder', hloops⟩ := hsame g' hg'
  exact ⟨g', num, num', hg', hnum, hnum', horder', hloops⟩

end Graph

end Flowgraph
