import Flowgraph.Order.Loops
import Flowgraph.Proofs.IndexTables
import Flowgraph.Proofs.Order.Discovery
import Mathlib.Data.List.Chain

/-!
# Natural loops and dominance

A block belongs to the loop of a header if it is the header or reaches the source of one of its
backedges without passing the header. The backward walk finds exactly these blocks.

## Reducible graphs

A graph is reducible if the header of every backedge dominates its source. Then the header
dominates its whole loop, so that control enters a loop only there, and of two loops of which one
contains the header of the other, one contains the other. Both arguments compare positions in the
order of the discovery search: a dominator comes before what it dominates.
-/

namespace Flowgraph

namespace Graph

variable {g : Graph}

/-! ## Loops

Membership is a path: from the block to the source of a backedge, around the header. -/

/-- An edge that neither leaves nor enters `h`. -/
def Avoids (g : Graph) (h a b : BlockIndex) : Prop := g.Arc a b ∧ a ≠ h ∧ b ≠ h

/-- Block `x` belongs to the loop with header `h`. -/
def InLoop (g : Graph) (h x : BlockIndex) : Prop :=
  x = h ∨ ∃ u, ⟨u, h⟩ ∈ g.backedges ∧ u ≠ h ∧ Relation.ReflTransGen (g.Avoids h) x u

theorem inLoop_header (h : BlockIndex) : g.InLoop h h := Or.inl rfl

/-- Apart from the header, what leads into a loop belongs to it. -/
theorem InLoop.of_arc {h x y : BlockIndex} (hx : g.InLoop h x) (hne : x ≠ h) (harc : g.Arc y x) :
    g.InLoop h y := by
  by_cases hy : y = h
  · exact Or.inl hy
  · rcases hx with heq | ⟨u, hu, huh, hpath⟩
    · exact absurd heq hne
    · exact Or.inr ⟨u, hu, huh, hpath.head ⟨harc, hy, hne⟩⟩

theorem InLoop.lt (hg : g.Sound) {h x : BlockIndex} (hh : h < g.blockCount) (hx : g.InLoop h x) :
    x < g.blockCount := by
  rcases hx with rfl | ⟨u, hu, -, hpath⟩
  · exact hh
  · rcases hpath.cases_head with rfl | ⟨y, hy, -⟩
    · exact (hg.arc_lt (arc_of_backedge hg hu)).1
    · exact (hg.arc_lt hy.1).1

end Graph

/-! ## The backward walk

The walk keeps a set of members and a list of those whose predecessors it has still to look at.
Everything in the set is a member, and when the list is empty the set is closed, so that it has all
of them. -/

namespace Loop

variable {g : Graph} {h : BlockIndex}

/-- The state of a backward walk from sources of backedges to `h`. What is pending still has to be
walked from; every other member has its predecessors among the members. -/
structure Flooding (g : Graph) (h : BlockIndex) (members : IndexSet) (pending : List BlockIndex) :
    Prop where
  tidy : members.Tidy
  capacity_eq : members.capacity = g.blockCount
  header : members.contains h = true
  pending_ne : ∀ x ∈ pending, x ≠ h
  pending_mem : ∀ x ∈ pending, members.contains x = true
  inLoop : ∀ x, members.contains x = true → g.InLoop h x
  closed : ∀ x, members.contains x = true → x ≠ h → x ∉ pending → ∀ p, g.Arc p x → p ≠ h →
    members.contains p = true

/-- Reaching a list of blocks adds them to the members and the new ones among them to what is
pending. -/
theorem foldl_reach : ∀ (ps : List BlockIndex) (m : IndexSet) (pending : List BlockIndex),
    m.Tidy → (∀ p ∈ ps, p < m.capacity) →
    (ps.foldl reach (m, pending)).1.Tidy ∧
      (ps.foldl reach (m, pending)).1.capacity = m.capacity ∧
      (∀ x, (ps.foldl reach (m, pending)).1.contains x = true ↔ x ∈ ps ∨ m.contains x = true) ∧
      (∀ x, x ∈ (ps.foldl reach (m, pending)).2 ↔
        x ∈ pending ∨ x ∈ ps ∧ m.contains x = false) ∧
      (ps.foldl reach (m, pending)).1.size + pending.length
        = m.size + (ps.foldl reach (m, pending)).2.length := by
  intro ps
  induction ps with
  | nil => exact fun _ _ htidy _ ↦ ⟨htidy, rfl, by simp, by simp, rfl⟩
  | cons p ps ih =>
    intro m pending htidy hlt
    rw [List.forall_mem_cons] at hlt
    rw [List.foldl_cons]
    by_cases hp : m.contains p = true
    · have hreach : reach (m, pending) p = (m, pending) := by rw [reach, if_pos hp]
      rw [hreach]
      obtain ⟨htidy', hcap, hmem, hpend, hsize⟩ := ih m pending htidy hlt.2
      refine ⟨htidy', hcap, fun x ↦ ?_, fun x ↦ ?_, hsize⟩
      · rw [hmem, List.mem_cons]
        constructor
        · exact fun hx ↦ hx.imp_left Or.inr
        · rintro ((rfl | hx) | hx)
          · exact Or.inr hp
          · exact Or.inl hx
          · exact Or.inr hx
      · rw [hpend, List.mem_cons]
        refine or_congr_right ⟨fun hx ↦ ⟨Or.inr hx.1, hx.2⟩, ?_⟩
        rintro ⟨rfl | hx, hnew⟩
        · rw [hp] at hnew
          cases hnew
        · exact ⟨hx, hnew⟩
    · have hreach : reach (m, pending) p = (m.insert p, p :: pending) := by rw [reach, if_neg hp]
      have hnew : m.contains p = false := by simpa using hp
      have hsize₁ : (m.insert p).size = m.size + 1 := by
        rw [IndexSet.insert_of_new hnew hlt.1, IndexSet.size, Array.size_push, IndexSet.size]
      rw [hreach]
      obtain ⟨htidy', hcap, hmem, hpend, hsize⟩ := ih (m.insert p) (p :: pending)
        (htidy.insert hlt.1) (by simpa using hlt.2)
      refine ⟨htidy', by rw [hcap, IndexSet.capacity_insert], fun x ↦ ?_, fun x ↦ ?_, ?_⟩
      · rw [hmem, IndexSet.contains_insert hlt.1, List.mem_cons]
        tauto
      · have hins : (m.insert p).contains x = false ↔ x ≠ p ∧ m.contains x = false := by
          rw [← Bool.not_eq_true, IndexSet.contains_insert hlt.1, not_or, Bool.not_eq_true]
        rw [hpend, List.mem_cons, hins, List.mem_cons]
        by_cases hxp : x = p
        · simp [hxp, hnew]
        · simp [hxp]
      · rw [List.length_cons] at hsize
        omega

/-- Walking from one pending member. -/
theorem Flooding.walk (hg : g.Sound) {m m' : IndexSet} {b : BlockIndex}
    {pending pending' : List BlockIndex} (hm : Flooding g h m (b :: pending))
    (hwalk : ((g.predecessors b).reverse.filter (· ≠ h)).foldl reach (m, pending) =
      (m', pending')) :
    Flooding g h m' pending' ∧ m'.size + pending.length = m.size + pending'.length ∧
      ∀ x, m.contains x = true → m'.contains x = true := by
  have hmem : ∀ p, p ∈ (g.predecessors b).reverse.filter (· ≠ h) ↔ g.Arc p b ∧ p ≠ h := by
    intro p
    rw [List.mem_filter, List.mem_reverse, hg.mem_predecessors_iff, decide_eq_true_iff]
    rfl
  obtain ⟨htidy, hcap, hcontains, hpend, hsize⟩ := foldl_reach _ m pending hm.tidy
    fun p hp ↦ hm.capacity_eq ▸ (hg.arc_lt ((hmem p).mp hp).1).1
  have hb := hm.pending_ne b List.mem_cons_self
  have hbm := hm.pending_mem b List.mem_cons_self
  rw [hwalk] at htidy hcap hcontains hpend hsize
  refine ⟨?_, hsize, fun x hx ↦ (hcontains x).mpr (Or.inr hx)⟩
  exact {
    tidy := htidy
    capacity_eq := hcap.trans hm.capacity_eq
    header := (hcontains h).mpr (Or.inr hm.header)
    pending_ne := fun x hx ↦ by
      rcases (hpend x).mp hx with hx | ⟨hx, -⟩
      · exact hm.pending_ne x (List.mem_cons_of_mem b hx)
      · exact ((hmem x).mp hx).2
    pending_mem := fun x hx ↦ by
      rw [hcontains]
      rcases (hpend x).mp hx with hx | ⟨hx, -⟩
      · exact Or.inr (hm.pending_mem x (List.mem_cons_of_mem b hx))
      · exact Or.inl hx
    inLoop := fun x hx ↦ by
      rcases (hcontains x).mp hx with hx | hx
      · exact (hm.inLoop b hbm).of_arc hb ((hmem x).mp hx).1
      · exact hm.inLoop x hx
    closed := fun x hx hxh hxp p hp hph ↦ by
      rw [hcontains]
      by_cases hxb : x = b
      · subst hxb
        exact Or.inl ((hmem p).mpr ⟨hp, hph⟩)
      · -- a member that is not pending now was none before either
        rw [hpend, not_or, not_and] at hxp
        have hold : m.contains x = true := by
          rcases (hcontains x).mp hx with hx | hx
          · simpa using hxp.2 hx
          · exact hx
        have hnot : x ∉ b :: pending := by simp [hxb, hxp.1]
        exact Or.inr (hm.closed x hold hxh hnot p hp hph) }

/-- With a step for every block that is not walked from yet, nothing is pending at the end. -/
theorem Flooding.pending_eq_nil {m : IndexSet} {pending : List BlockIndex}
    (hm : Flooding g h m pending) (hsteps : g.blockCount + pending.length ≤ m.size) :
    pending = [] := by
  have hsize := hm.tidy.size_le
  rw [hm.capacity_eq] at hsize
  exact List.eq_nil_of_length_eq_zero (by omega)

/-- The walk ends with nothing pending: each step walks from a member of its own. -/
private theorem flood_spec (hg : g.Sound) : ∀ (steps : Nat) {m : IndexSet}
    {pending : List BlockIndex},
    Flooding g h m pending → g.blockCount + pending.length ≤ m.size + steps →
    Flooding g h (flood g h steps (m, pending)) [] ∧
      ∀ x, m.contains x = true → (flood g h steps (m, pending)).contains x = true := by
  intro steps
  induction steps with
  | zero =>
    intro m pending hm hsteps
    have hnil := hm.pending_eq_nil hsteps
    subst hnil
    exact ⟨hm, fun _ hx ↦ hx⟩
  | succ steps ih =>
    intro m pending hm hsteps
    cases pending with
    | nil => exact ⟨hm, fun _ hx ↦ hx⟩
    | cons b pending =>
      rw [flood]
      cases hwalk : ((g.predecessors b).reverse.filter (· ≠ h)).foldl reach (m, pending) with
      | mk m' pending' =>
        obtain ⟨hm', hsize, hkeep⟩ := hm.walk hg hwalk
        rw [List.length_cons] at hsteps
        obtain ⟨hflood, hgrow⟩ := ih hm' (by omega)
        exact ⟨hflood, fun x hx ↦ hgrow x (hkeep x hx)⟩

theorem flooding_start (hh : h < g.blockCount) :
    Flooding g h (start g.blockCount h).members [] := by
  have hcap : h < (IndexSet.empty g.blockCount).capacity := by rwa [IndexSet.capacity_empty]
  have hcontains : ∀ x, (start g.blockCount h).members.contains x = true → x = h := by
    intro x hx
    rw [start, IndexSet.contains_insert hcap] at hx
    rcases hx with hx | hx
    · exact hx
    · exact absurd (IndexSet.mem_of_contains hx) (by simp [IndexSet.empty, IndexSet.toList])
  exact {
    tidy := (IndexSet.tidy_empty _).insert hcap
    capacity_eq := by rw [start, IndexSet.capacity_insert, IndexSet.capacity_empty]
    header := (IndexSet.contains_insert hcap h).mpr (Or.inl rfl)
    pending_ne := by simp
    pending_mem := by simp
    inLoop := fun x hx ↦ Or.inl (hcontains x hx)
    closed := fun x hx hxh ↦ absurd (hcontains x hx) hxh }

/-- The walk from the source of a backedge starts with depth for every block. -/
theorem Flooding.reach_source (hg : g.Sound) {l : Loop} {e : Backedge} {m : IndexSet}
    {pending : List BlockIndex} (he : e ∈ g.backedges) (hheader : e.header = l.header)
    (hl : Flooding g l.header l.members []) (hne : e.source ≠ l.header)
    (hreach : reach (l.members, []) e.source = (m, pending)) :
    Flooding g l.header m pending ∧ g.blockCount + pending.length ≤ m.size + g.blockCount ∧
      m.contains e.source = true ∧ ∀ x, l.members.contains x = true → m.contains x = true := by
  have hlt : e.source < l.members.capacity :=
    hl.capacity_eq ▸ (hg.arc_lt (Graph.arc_of_backedge hg he)).1
  obtain ⟨htidy, hcap, hcontains, hpend, hsize⟩ :=
    foldl_reach [e.source] l.members [] hl.tidy (by simpa using hlt)
  simp only [List.foldl_cons, List.foldl_nil, List.mem_singleton, List.not_mem_nil,
    false_or, hreach] at htidy hcap hcontains hpend hsize
  have hle : pending.length ≤ m.size := by simp only [List.length_nil] at hsize; omega
  refine ⟨?_, by omega, (hcontains _).mpr (Or.inl rfl), fun x hx ↦ (hcontains x).mpr (Or.inr hx)⟩
  exact {
    tidy := htidy
    capacity_eq := hcap.trans hl.capacity_eq
    header := (hcontains _).mpr (Or.inr hl.header)
    pending_ne := fun x hx ↦ ((hpend x).mp hx).1 ▸ hne
    pending_mem := fun x hx ↦ (hcontains x).mpr (Or.inl ((hpend x).mp hx).1)
    inLoop := fun x hx ↦ by
      rcases (hcontains x).mp hx with rfl | hx
      · exact Or.inr ⟨e.source, hheader ▸ he, hne, .refl⟩
      · exact hl.inLoop x hx
    closed := fun x hx hxh hxp p hp hph ↦ by
      have hold : l.members.contains x = true := by
        rw [hpend, not_and, Bool.not_eq_false] at hxp
        rcases (hcontains x).mp hx with hx | hx
        · exact hxp hx
        · exact hx
      exact (hcontains p).mpr (Or.inr (hl.closed x hold hxh (by simp) p hp hph)) }

private theorem grow_spec (hg : g.Sound) {l : Loop} {e : Backedge} (he : e ∈ g.backedges)
    (hheader : e.header = l.header) (hl : Flooding g l.header l.members []) :
    (grow g l e).header = l.header ∧ Flooding g l.header (grow g l e).members [] ∧
      (grow g l e).members.contains e.source = true ∧
      ∀ x, l.members.contains x = true → (grow g l e).members.contains x = true := by
  rw [grow]
  split
  · rename_i hself
    exact ⟨rfl, hl, hself ▸ hl.header, fun _ hx ↦ hx⟩
  · rename_i hne
    cases hreach : reach (l.members, []) e.source with
    | mk m pending =>
      obtain ⟨hm, hsteps, hsource, hkeep⟩ := hl.reach_source hg he hheader hne hreach
      obtain ⟨hflood, hgrow⟩ := flood_spec hg g.blockCount hm hsteps
      exact ⟨rfl, hflood, hgrow _ hsource, fun x hx ↦ hgrow x (hkeep x hx)⟩

theorem foldl_grow_spec (hg : g.Sound) : ∀ (es : List Backedge) (l : Loop),
    (∀ e ∈ es, e ∈ g.backedges ∧ e.header = l.header) → Flooding g l.header l.members [] →
    (es.foldl (grow g) l).header = l.header ∧
      Flooding g l.header (es.foldl (grow g) l).members [] ∧
      (∀ e ∈ es, (es.foldl (grow g) l).members.contains e.source = true) ∧
      ∀ x, l.members.contains x = true → (es.foldl (grow g) l).members.contains x = true := by
  intro es
  induction es with
  | nil => exact fun _ _ hl ↦ ⟨rfl, hl, by simp, fun _ hx ↦ hx⟩
  | cons e es ih =>
    intro l hes hl
    rw [List.forall_mem_cons] at hes
    obtain ⟨hheader, hflood, hsource, hgrow⟩ := grow_spec hg hes.1.1 hes.1.2 hl
    obtain ⟨hheader', hflood', hsource', hgrow'⟩ := ih (grow g l e)
      (fun e' he' ↦ ⟨(hes.2 e' he').1, (hes.2 e' he').2.trans hheader.symm⟩) (hheader ▸ hflood)
    rw [List.foldl_cons]
    refine ⟨hheader'.trans hheader, hheader ▸ hflood', List.forall_mem_cons.mpr ⟨?_, hsource'⟩, ?_⟩
    · exact hgrow' _ hsource
    · exact fun x hx ↦ hgrow' x (hgrow x hx)

private theorem Flooding.contains_iff {m : IndexSet} (hm : Flooding g h m [])
    (hsource : ∀ e ∈ g.backedges, e.header = h → m.contains e.source = true) {x : BlockIndex} :
    m.contains x = true ↔ g.InLoop h x := by
  refine ⟨hm.inLoop x, ?_⟩
  rintro (rfl | ⟨u, hu, -, hpath⟩)
  · exact hm.header
  · induction hpath using Relation.ReflTransGen.head_induction_on with
    | refl => exact hsource _ hu rfl
    | head harc _ ih => exact hm.closed _ ih harc.2.2 (by simp) _ harc.1 harc.2.1

end Loop

namespace Graph

variable {g : Graph}

theorem mem_headers {h : BlockIndex} : h ∈ g.headers ↔ ∃ u, ⟨u, h⟩ ∈ g.backedges := by
  rw [headers, List.mem_eraseDups, List.mem_map]
  constructor
  · rintro ⟨⟨u, _⟩, he, rfl⟩
    exact ⟨u, he⟩
  · rintro ⟨u, hu⟩
    exact ⟨_, hu, rfl⟩

/-- The members of each loop are the blocks that belong to it. -/
theorem loops_spec (hg : g.Sound) {l : Loop} (hl : l ∈ g.loops) :
    l.header ∈ g.headers ∧ l.members.Tidy ∧
      ∀ x, l.members.contains x = true ↔ g.InLoop l.header x := by
  rw [loops, List.mem_map] at hl
  obtain ⟨h, hh, rfl⟩ := hl
  obtain ⟨u, hu⟩ := mem_headers.mp hh
  have hlt := (hg.arc_lt (arc_of_backedge hg hu)).2
  obtain ⟨hheader, hflood, hsource, -⟩ := Loop.foldl_grow_spec hg
    (g.backedges.filter (·.header = h)) (Loop.start g.blockCount h)
    (fun e he ↦ by simpa [Loop.start] using he) (Loop.flooding_start hlt)
  refine ⟨hheader ▸ hh, hflood.tidy, fun x ↦ ?_⟩
  rw [hheader]
  refine hflood.contains_iff fun e he heq ↦ hsource e ?_
  exact List.mem_filter.mpr ⟨he, decide_eq_true heq⟩

/-- The headers of the loops are the targets of the backedges. -/
theorem exists_loop_iff (hg : g.Sound) {h : BlockIndex} :
    (∃ l ∈ g.loops, l.header = h) ↔ ∃ u, ⟨u, h⟩ ∈ g.backedges := by
  rw [← mem_headers]
  constructor
  · rintro ⟨l, hl, rfl⟩
    exact (loops_spec hg hl).1
  · intro hh
    obtain ⟨u, hu⟩ := mem_headers.mp hh
    refine ⟨_, List.mem_map.mpr ⟨h, hh, rfl⟩, ?_⟩
    exact (Loop.foldl_grow_spec hg (g.backedges.filter (·.header = h))
      (Loop.start g.blockCount h) (fun e he ↦ by simpa [Loop.start] using he)
      (Loop.flooding_start (hg.arc_lt (arc_of_backedge hg hu)).2)).1

/-! ## Dominance

A block dominates another one if every walk from the entry passes it. It is enough to check that
dominance is kept along arcs, as walks are made of them. -/

/-- Block `d` dominates block `b`: every walk from the entry to `b` passes `d`. -/
def Dominates (g : Graph) (d b : BlockIndex) : Prop :=
  ∀ w : List BlockIndex, w.head? = some 0 → w.getLast? = some b → w.IsChain g.Arc → d ∈ w

/-- The header of every backedge dominates its source. -/
def Reducible (g : Graph) : Prop := ∀ e ∈ g.backedges, g.Dominates e.header e.source

theorem dominates_self (b : BlockIndex) : g.Dominates b b :=
  fun _ _ hlast _ ↦ List.mem_of_getLast? hlast

/-- A walk that ends in `b` goes on along an edge out of `b`. -/
theorem walk_concat {w : List BlockIndex} {b c : BlockIndex} (hhead : w.head? = some 0)
    (hlast : w.getLast? = some b) (hchain : w.IsChain g.Arc) (harc : g.Arc b c) :
    (w ++ [c]).head? = some 0 ∧ (w ++ [c]).getLast? = some c ∧ (w ++ [c]).IsChain g.Arc := by
  refine ⟨by simp [List.head?_append, hhead], by simp, ?_⟩
  refine List.IsChain.append hchain (List.isChain_singleton c) fun x hx y hy ↦ ?_
  rw [hlast] at hx
  cases hx
  cases hy
  exact harc

/-- What dominates a block dominates the blocks that lead to it, unless it is the block itself. -/
theorem Dominates.of_arc {d b c : BlockIndex} (h : g.Dominates d c) (hne : c ≠ d)
    (harc : g.Arc b c) : g.Dominates d b := by
  intro w hhead hlast hchain
  obtain ⟨hhead', hlast', hchain'⟩ := walk_concat hhead hlast hchain harc
  have := h _ hhead' hlast' hchain'
  rw [List.mem_append, List.mem_singleton] at this
  exact this.resolve_right (Ne.symm hne)

/-- What dominates a dominator of a block dominates the block. -/
theorem Dominates.trans {d e b : BlockIndex} (h : g.Dominates d e) (h' : g.Dominates e b) :
    g.Dominates d b := by
  intro w hhead hlast hchain
  obtain ⟨w₁, w₂, rfl⟩ := List.append_of_mem (h' w hhead hlast hchain)
  rw [List.append_cons] at hhead hchain ⊢
  have hd := h (w₁ ++ [e]) (by rwa [List.head?_append_of_ne_nil _ (by simp)] at hhead) (by simp)
    (List.isChain_append.mp hchain).1
  exact List.mem_append_left _ hd

/-- What dominates all blocks that lead to a block dominates it, unless that block is the entry. -/
theorem dominates_of_arcs {d b : BlockIndex} (hb : b ≠ 0) (h : ∀ p, g.Arc p b → g.Dominates d p) :
    g.Dominates d b := by
  intro w hhead hlast hchain
  obtain ⟨w', rfl⟩ := List.getLast?_eq_some_iff.mp hlast
  cases hlast' : w'.getLast? with
  | none =>
    rw [List.getLast?_eq_none_iff.mp hlast'] at hhead
    exact absurd (Option.some.inj hhead) hb
  | some p =>
    obtain ⟨hchain', -, hjoin⟩ := List.isChain_append.mp hchain
    have hne : w' ≠ [] := fun hnil ↦ by rw [hnil] at hlast'; cases hlast'
    rw [List.head?_append_of_ne_nil _ hne] at hhead
    exact List.mem_append_left _ (h p (hjoin p hlast' b rfl) w' hhead hlast' hchain')

/-- The only block that leads to a block dominates it, unless that block is the entry. -/
theorem dominates_of_arc {d b : BlockIndex} (hb : b ≠ 0) (h : ∀ p, g.Arc p b → p = d) :
    g.Dominates d b :=
  dominates_of_arcs hb fun p hp ↦ h p hp ▸ dominates_self p

/-- A block outside of a set that is left through `d` only is dominated by `d`. -/
theorem dominates_of_closed {S : List BlockIndex} {d b : BlockIndex} (hentry : 0 ∈ S ∨ d = 0)
    (hclosed : ∀ u ∈ S, ∀ v ∈ g.successors u, v ∈ S ∨ v = d) (hb : b ∉ S) : g.Dominates d b := by
  intro w
  induction w using List.reverseRecOn generalizing b with
  | nil => exact fun hhead ↦ nomatch hhead
  | append_singleton w c ih =>
    intro hhead hlast hchain
    rw [List.getLast?_concat] at hlast
    cases hlast
    by_contra hnot
    rw [List.mem_append, List.mem_singleton, not_or] at hnot
    -- by induction on the walk: the step onto `c` comes from outside the set, or leaves it at `d`
    cases hw : w.getLast? with
    | none =>
      rw [List.getLast?_eq_none_iff.mp hw] at hhead
      cases hhead
      rcases hentry with hentry | hentry
      · exact hb hentry
      · exact hnot.2 hentry
    | some p =>
      have harc : g.Arc p c := (List.isChain_append.mp hchain).2.2 p hw c rfl
      have hne : w ≠ [] := fun heq ↦ by rw [heq] at hw; cases hw
      have hhead' : w.head? = some 0 := by rwa [List.head?_append_of_ne_nil w hne] at hhead
      by_cases hp : p ∈ S
      · rcases hclosed p hp c harc with hc | hc
        · exact hb hc
        · exact hnot.2 hc.symm
      · exact hnot.1 (ih hp hhead' hw (List.isChain_append.mp hchain).1)

private theorem path_or_walk {r : BlockIndex → BlockIndex → Prop} (hr : ∀ a b, r a b → g.Arc a b)
    (d : BlockIndex) {b : BlockIndex} (h : Relation.ReflTransGen r 0 b) :
    Relation.ReflTransGen r d b ∨
      ∃ w : List BlockIndex, w.head? = some 0 ∧ w.getLast? = some b ∧ w.IsChain g.Arc ∧ d ∉ w := by
  induction h with
  | refl =>
    by_cases hd : d = 0
    · exact Or.inl (hd ▸ .refl)
    · exact Or.inr ⟨[0], rfl, rfl, List.isChain_singleton 0, by simpa using hd⟩
  | @tail b c _ harc ih =>
    rcases ih with ih | ⟨w, hhead, hlast, hchain, hd⟩
    · exact Or.inl (ih.tail harc)
    · by_cases hc : d = c
      · exact Or.inl (hc ▸ .refl)
      · obtain ⟨hhead', hlast', hchain'⟩ := walk_concat hhead hlast hchain (hr _ _ harc)
        exact Or.inr ⟨w ++ [c], hhead', hlast', hchain', by simp [hd, hc]⟩

/-- Any kind of edges that leads from the entry to a block leads there from its dominators. -/
theorem Dominates.path {r : BlockIndex → BlockIndex → Prop} (hr : ∀ a b, r a b → g.Arc a b)
    {d b : BlockIndex} (h : g.Dominates d b) (hpath : Relation.ReflTransGen r 0 b) :
    Relation.ReflTransGen r d b := by
  rcases path_or_walk hr d hpath with hpath | ⟨w, hhead, hlast, hchain, hd⟩
  · exact hpath
  · exact absurd (h w hhead hlast hchain) hd

/-! ## Positions in the order of the search

A dominator is found first, so that it stands in front of what it dominates. A path of forward edges
leads forward, too. -/

/-- The position of a block in the order of the discovery search. -/
def rank (g : Graph) (b : BlockIndex) : Nat := g.discovery.order.idxOf b

/-- Along forward edges the position grows. -/
theorem rank_of_path (hg : g.Sound) {a b : BlockIndex} (ha : a ∈ g.discovery.order)
    (h : Relation.ReflTransGen g.ForwardArc a b) : a = b ∨ g.rank a < g.rank b := by
  have hmem : b ∈ g.discovery.order ∧ (a = b ∨ g.rank a < g.rank b) := by
    induction h with
    | refl => exact ⟨ha, Or.inl rfl⟩
    | tail _ harc ih =>
      have hlt := idxOf_lt_of_forwardArc hg ih.1 harc
      refine ⟨mem_discovery_of_arc hg ih.1 harc.1, Or.inr ?_⟩
      rcases ih.2 with rfl | ih
      · exact hlt
      · exact Nat.lt_trans ih hlt
  exact hmem.2

theorem Dominates.forward_path (hg : g.Sound) {d b : BlockIndex} (hb : b ∈ g.discovery.order)
    (h : g.Dominates d b) : Relation.ReflTransGen g.ForwardArc d b :=
  h.path (fun _ _ harc ↦ harc.1) (Graph.forward_path hg hb)

/-- A dominator comes before what it dominates. -/
theorem Dominates.eq_or_rank_lt (hg : g.Sound) {d b : BlockIndex} (hd : d ∈ g.discovery.order)
    (hb : b ∈ g.discovery.order) (h : g.Dominates d b) : d = b ∨ g.rank d < g.rank b :=
  rank_of_path hg hd (h.forward_path hg hb)

/-! ## Loops of reducible graphs

The header dominates the members of its loop, and a walk from a member to another one that leaves
the loop comes back over the header. -/

section Reducible

variable (hred : g.Reducible)

include hred

theorem Reducible.dominates {h x : BlockIndex} (hx : g.InLoop h x) : g.Dominates h x := by
  rcases hx with rfl | ⟨u, hu, -, hpath⟩
  · exact dominates_self x
  · induction hpath using Relation.ReflTransGen.head_induction_on with
    | refl => exact hred _ hu
    | head harc _ ih => exact ih.of_arc harc.2.2 harc.1

/-- A loop that contains the header of another one contains the whole of it. -/
theorem Reducible.nested (hg : g.Sound) (hall : ∀ b < g.blockCount, b ∈ g.discovery.order)
    {h h' x : BlockIndex} (hh : h ∈ g.headers) (hh' : h' ∈ g.headers) (hin : g.InLoop h h')
    (hx : g.InLoop h' x) : g.InLoop h x := by
  by_cases heq : h' = h
  · exact heq ▸ hx
  · rcases hx with rfl | ⟨u, hu, huh', hpath⟩
    · exact hin
    · have hmem : ∀ {c}, c ∈ g.headers → c ∈ g.discovery.order := fun hc ↦ by
        obtain ⟨v, hv⟩ := mem_headers.mp hc
        exact hall _ (hg.arc_lt (arc_of_backedge hg hv)).2
      -- the outer header is not in the inner loop, or the two would dominate each other
      have hout : ¬g.InLoop h' h := fun hback ↦ by
        have h₁ := (hred.dominates hin).eq_or_rank_lt hg (hmem hh) (hmem hh')
        have h₂ := (hred.dominates hback).eq_or_rank_lt hg (hmem hh') (hmem hh)
        rcases h₁ with h₁ | h₁
        · exact heq h₁.symm
        · rcases h₂ with h₂ | h₂
          · exact heq h₂
          · exact Nat.lt_asymm h₁ h₂
      induction hpath using Relation.ReflTransGen.head_induction_on with
      | refl => exact hin.of_arc heq (arc_of_backedge hg hu)
      | @head a b harc hpath ih =>
        refine ih.of_arc ?_ harc.1
        rintro rfl
        exact hout (Or.inr ⟨u, hu, huh', hpath⟩)

/-- Forward edges lead from the header to each block of its loop without leaving the loop. -/
theorem Reducible.path_inside (hg : g.Sound) {h x : BlockIndex} (hb : x ∈ g.discovery.order)
    (hx : g.InLoop h x) :
    Relation.ReflTransGen (fun a b ↦ g.ForwardArc a b ∧ g.InLoop h b) h x := by
  have hpath := (hred.dominates hx).forward_path hg hb
  clear hb
  induction hpath with
  | refl => exact .refl
  | @tail y x _ harc ih =>
    by_cases hxh : x = h
    · exact hxh ▸ .refl
    · exact (ih (hx.of_arc hxh harc.1)).tail ⟨harc, hx⟩

end Reducible

end Graph

end Flowgraph
