import Flowgraph.Proofs.Order.Reducible

/-!
# The special reverse postorder

If every block can be reached and no edge enters the entry, the special reverse postorder is a
permutation of the blocks with the entry first. If the graph is reducible as well, every loop is
contiguous in it and every edge but the backedges leads forward.
-/

namespace Flowgraph

namespace Layout

private theorem Laid.head {g : Graph} {loops : List Loop} {s s' : Layout} {c : BlockIndex}
    {n : List BlockIndex} (h : Laid g loops [c] s s' n) (hc : s.Fresh c)
    (hopen : s.openLoops = []) : n.head? = some c := by
  cases h with
  | skip hnot => exact absurd hc hnot
  | park _ hl =>
    rw [hopen] at hl
    cases hl
  | block _ _ _ _ hrest =>
    cases hrest
    rfl
  | loop _ _ _ _ _ _ hrest =>
    cases hrest
    rfl

end Layout

namespace Graph

variable {g : Graph}

theorem discovery_perm (hg : g.Sound) (hreach : ∀ b < g.blockCount, g.Reachable b)
    (hpos : 0 < g.blockCount) : g.discovery.order.Perm (List.range g.blockCount) := by
  rw [List.perm_ext_iff_of_nodup (nodup_discovery hg) List.nodup_range]
  intro b
  rw [List.mem_range]
  exact ⟨discovery_lt hg, fun hb ↦ (mem_discovery_iff hg hpos).mpr (hreach b hb)⟩

private theorem not_header_of_entry (hg : g.Sound) (hentry : ∀ u, ¬g.Arc u 0) {l : Loop}
    (hl : l ∈ g.loops) : l.header ≠ 0 := by
  intro heq
  obtain ⟨u, hu⟩ := mem_headers.mp (loops_spec hg hl).1
  have harc := arc_of_backedge hg hu
  rw [heq] at harc
  exact hentry u harc

/-- The order is that of the search or that of the layout, and it has to reach every block. -/
theorem numbering_eq (g : Graph) : g.numbering = (do
    let order ← (if g.loops.isEmpty then .ok g.discovery.order else g.layout g.loops)
    if order.length ≠ g.blockCount then throw (.orderCovers order.length g.blockCount)
    else pure ⟨order, g.loops⟩) := by
  rw [numbering]
  split <;> rfl

/-- The order comes from the discovery search if there is no loop, and from the layout else. -/
theorem exists_numbering (hg : g.Sound) (hreach : ∀ b < g.blockCount, g.Reachable b)
    (hentry : ∀ u, ¬g.Arc u 0) :
    ∃ num, g.numbering = .ok num ∧ num.loops = g.loops ∧
      num.order.Perm (List.range g.blockCount) ∧ num.order.head? = entry? g ∧
      (g.loops = [] ∧ num.order = g.discovery.order ∨
        ∃ s', Layout.Laid g g.loops [0] (.start g.blockCount g.loops.length) s' num.order) := by
  by_cases hpos : 0 < g.blockCount
  · have hfirst : entry? g = some 0 := by
      rw [ entry?, if_neg (by simpa [blockCount, Array.isEmpty_iff_size_eq_zero] using hpos.ne')]
    have hdone : ∀ {order : List BlockIndex}, order.Perm (List.range g.blockCount) →
        (if g.loops.isEmpty then .ok g.discovery.order else g.layout g.loops) = .ok order →
        g.numbering = .ok ⟨order, g.loops⟩ := by
      intro order hperm heq
      have hlen : order.length = g.blockCount := by rw [hperm.length_eq, List.length_range]
      rw [numbering_eq, heq, ok_bind, if_neg (not_not.mpr hlen)]
      rfl
    by_cases hempty : g.loops = []
    · have hperm := discovery_perm hg hreach hpos
      refine ⟨⟨g.discovery.order, g.loops⟩, hdone hperm (by simp [hempty]), rfl, hperm, ?_,
        Or.inl ⟨hempty, rfl⟩⟩
      rw [hfirst]
      exact discovery_head hg hpos
    · obtain ⟨order, s', hlayout, hlaid⟩ := exists_laid g.loops hpos
        fun l hl ↦ not_header_of_entry hg hentry hl
      have hperm := laid_perm hg hreach hpos hlaid
      refine ⟨⟨order, g.loops⟩, hdone hperm (by simp [hempty, hlayout]), rfl, hperm, ?_,
        Or.inr ⟨s', hlaid⟩⟩
      rw [hfirst]
      exact hlaid.head ((Layout.fresh_start _).mpr hpos) rfl
  · have hzero : g.blockCount = 0 := by omega
    have hblocks : g.blocks.isEmpty = true := by
      simpa [blockCount, Array.isEmpty_iff_size_eq_zero] using hzero
    have hdisc : g.discovery = Discovery.start g.blockCount := by rw [discovery, if_pos hzero]
    have hloops : g.loops = [] := by
      rw [loops, headers, backedges, hdisc]
      rfl
    refine ⟨⟨[], []⟩, ?_, hloops.symm, by simp [hzero], by simp [ entry?, hblocks], Or.inl ?_⟩
    · rw [numbering]
      simp [hloops, hdisc, Discovery.start, hzero, ok_bind]
      rfl
    · exact ⟨hloops, by rw [hdisc]; rfl⟩

private theorem idxOf_lt_of_path {order : List BlockIndex}
    (hforward : ∀ u v, g.ForwardArc u v → order.idxOf u < order.idxOf v) {a b : BlockIndex}
    (h : Relation.ReflTransGen g.ForwardArc a b) : a = b ∨ order.idxOf a < order.idxOf b := by
  induction h with
  | refl => exact Or.inl rfl
  | tail _ harc ih =>
    refine Or.inr ?_
    rcases ih with rfl | ih
    · exact hforward _ _ harc
    · exact Nat.lt_trans ih (hforward _ _ harc)

theorem regular_of_reachable (hg : g.Sound) (hreach : ∀ b < g.blockCount, g.Reachable b)
    (hred : g.Reducible) : Layout.Regular g where
  sound := hg
  reached b hb := (mem_discovery_iff hg (Nat.zero_lt_of_lt hb)).mpr (hreach b hb)
  reducible := hred

private theorem reachable_of_regular (hr : Layout.Regular g) : ∀ b < g.blockCount, g.Reachable b :=
  fun b hb ↦ (mem_discovery_iff hr.sound (Nat.zero_lt_of_lt hb)).mp (hr.reached b hb)

theorem arranged_of_laid (hr : Layout.Regular g) {s' : Layout} {order : List BlockIndex}
    (h : Layout.Laid g g.loops [0] (.start g.blockCount g.loops.length) s' order) :
    Layout.Arranged g (.start g.blockCount g.loops.length) 0 order := by
  have hsane : Layout.Sane g (.start g.blockCount g.loops.length) := by
    refine ⟨Layout.fits_start _ _, Array.size_replicate, fun b hb ↦ ?_, fun {l loop v} _ hv ↦ ?_⟩
    · obtain ⟨p, hp, hne⟩ := hb
      rw [Layout.start, Array.getElem?_replicate] at hp
      split at hp
      · exact absurd (Option.some.inj hp).symm hne
      · cases hp
    · rw [Layout.parkedAt, Layout.start, Array.getElem?_replicate] at hv
      split at hv <;> cases hv
  exact hr.arranged h hsane (by simp [Layout.Aimed, Layout.start]) fun _ _ _ ↦ Nat.zero_le _

/-- In the special reverse postorder of a reducible graph forward edges lead forward. -/
theorem forward_of_numbering (hr : Layout.Regular g) (hentry : ∀ u, ¬g.Arc u 0)
    {num : Numbering} (hnum : g.numbering = .ok num) {u v : BlockIndex}
    (harc : g.ForwardArc u v) : num.order.idxOf u < num.order.idxOf v := by
  obtain ⟨num', hnum', -, hperm, -, hcases⟩ :=
    exists_numbering hr.sound (reachable_of_regular hr) hentry
  cases hnum.symm.trans hnum'
  obtain ⟨hu, hv⟩ := hr.sound.arc_lt harc.1
  rcases hcases with ⟨-, horder⟩ | ⟨s', hlaid⟩
  · rw [horder]
    exact idxOf_lt_of_forwardArc hr.sound (hr.reached u hu) harc
  · have hmem : ∀ {b}, b < g.blockCount → b ∈ num.order := fun hb ↦
      hperm.mem_iff.mpr (List.mem_range.mpr hb)
    exact idxOf_lt_idxOf_of_pair (hperm.nodup_iff.mpr List.nodup_range)
      ((arranged_of_laid hr hlaid).forward u (hmem hu) v (hmem hv) harc)

/-- A backedge of a reducible graph leads back to where a path of forward edges started. -/
theorem backward_of_numbering (hr : Layout.Regular g) (hentry : ∀ u, ¬g.Arc u 0)
    {num : Numbering} (hnum : g.numbering = .ok num) {e : Backedge} (he : e ∈ g.backedges) :
    e.header = e.source ∨ num.order.idxOf e.header < num.order.idxOf e.source := by
  have hsource := (hr.sound.arc_lt (arc_of_backedge hr.sound he)).1
  exact idxOf_lt_of_path (fun u v harc ↦ forward_of_numbering hr hentry hnum harc)
    ((hr.reducible e he).forward_path hr.sound (hr.reached _ hsource))

/-- In a reducible graph whose blocks can all be reached and whose entry no edge enters, the
special reverse postorder exists. It holds every block once, the entry first, keeps the members of
each loop together behind the header, and turns every edge but the backedges forward. -/
theorem numbering_of_reducible {g : Graph} (hbuilt : g.Built)
    (hreach : ∀ b < g.blockCount, g.Reachable b) (hentry : ∀ u, ¬g.Arc u 0)
    (hred : ∀ e ∈ g.backedges, g.Dominates e.header e.source) :
    ∃ num, g.numbering = .ok num ∧ g.specialOrder = .ok num.order ∧
      num.order.Perm (List.range g.blockCount) ∧ num.order.head? = entry? g ∧
      (∀ l ∈ num.loops, ∃ before body after,
        num.order = before ++ (l.header :: body) ++ after ∧
          ∀ b, b ∈ l.header :: body ↔ b ∈ l.members.toList) ∧
      (∀ u v, g.Arc u v → ⟨u, v⟩ ∉ g.backedges → num.order.idxOf u < num.order.idxOf v) ∧
      ∀ e ∈ g.backedges, e.header = e.source ∨
        num.order.idxOf e.header < num.order.idxOf e.source := by
  have hg := hbuilt.sound
  have hr := regular_of_reachable hg hreach hred
  obtain ⟨num, hnum, hloops, hperm, hhead, hcases⟩ := exists_numbering hg hreach hentry
  have hspecial : g.specialOrder = .ok num.order := by rw [specialOrder, hnum, ok_bind]; rfl
  refine ⟨num, hnum, hspecial, hperm, hhead, fun l hl ↦ ?_, fun u v harc hnot ↦ ?_, fun e he ↦ ?_⟩
  · rw [hloops] at hl
    obtain ⟨hheader, htidy, hmembers⟩ := loops_spec hg hl
    obtain ⟨u, hu⟩ := mem_headers.mp hheader
    have hmem : l.header ∈ num.order := hperm.mem_iff.mpr
      (List.mem_range.mpr (hg.arc_lt (arc_of_backedge hg hu)).2)
    rcases hcases with ⟨hempty, -⟩ | ⟨s', hlaid⟩
    · rw [hempty] at hl
      cases hl
    · obtain ⟨body, ⟨before, after, heq⟩, hbody⟩ :=
        (arranged_of_laid hr hlaid).contiguous l.header hheader hmem
      refine ⟨before, body, after, heq.symm, fun b ↦ ?_⟩
      rw [hbody, htidy.mem_iff, hmembers]
  · exact forward_of_numbering hr hentry hnum ⟨harc, hnot⟩
  · exact backward_of_numbering hr hentry hnum he

/-- An entry, a loop of two blocks and an exit. -/
def sampleLoop : Graph :=
  ((Sketch.mk [[1], [2, 3], [1], []] [1]).graph .empty).toOption.getD (.empty .empty)

theorem numbering_sampleLoop :
    ∃ num, sampleLoop.numbering = .ok num ∧ num.order.Perm (List.range 4) ∧
      num.order.idxOf 1 < num.order.idxOf 2 := by
  have hbuilt : sampleLoop.Built :=
    Sketch.graph_built ⟨[[1], [2, 3], [1], []], [1]⟩ .empty rfl
  have hcount : sampleLoop.blockCount = 4 := rfl
  have horder : ∀ b < 4, b ∈ sampleLoop.discovery.order := by decide
  obtain ⟨num, hnum, -, hperm, -, -, hforward, -⟩ := numbering_of_reducible hbuilt
    (fun b hb ↦ (mem_discovery_iff hbuilt.sound (by decide)).mp (horder b (hcount ▸ hb)))
    (fun u hu ↦ by
      have := hbuilt.sound.mem_predecessors_iff.mpr hu
      exact absurd this (by rw [show sampleLoop.predecessors 0 = [] from rfl]; simp))
    (fun e he ↦ by
      rw [show sampleLoop.backedges = [⟨2, 1⟩] from rfl, List.mem_singleton] at he
      subst he
      refine dominates_of_arc (by decide) fun p hp ↦ ?_
      have := hbuilt.sound.mem_predecessors_iff.mpr hp
      rw [show sampleLoop.predecessors 2 = [1] from rfl] at this
      exact List.mem_singleton.mp this)
  exact ⟨num, hnum, hperm, hforward 1 2 (by decide) (by decide)⟩

end Graph

end Flowgraph
