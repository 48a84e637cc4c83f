import Flowgraph.Order.Discovery
import Flowgraph.Proofs.Graph.Renaming
import Mathlib.Logic.Relation

/-!
# What the discovery search finds

The search finishes exactly the blocks that the entry reaches, and an edge between two of them is
a backedge exactly if it does not lead forward in the order of the finished blocks.

## The trace of a search

The active blocks form the path from the entry to the block under visit. Written from the entry
down and followed by the finished blocks, this path is a list that only ever grows by insertion:
entering a block puts it between the path and the finished blocks, and finishing it moves the
border between the two and nothing else. Every fact of the form "`u` comes before `v`" is a
sublist `[u, v]` of that list, so that it lasts once it holds.
-/

namespace Flowgraph

/-! ## Pairs in a list

That `u` comes before `v` is said by a sublist of two. It lasts when something is inserted and is
turned into positions only at the end. -/

theorem idxOf_lt_idxOf_of_pair {l : List Nat} {a b : Nat} (hnd : l.Nodup) (h : [a, b].Sublist l) :
    l.idxOf a < l.idxOf b := by
  induction l with
  | nil => cases h
  | cons c l ih =>
    rw [List.nodup_cons] at hnd
    cases h with
    | cons _ h =>
      have ha : c ≠ a := fun heq ↦ hnd.1 (heq ▸ h.subset (by simp))
      have hb : c ≠ b := fun heq ↦ hnd.1 (heq ▸ h.subset (by simp))
      rw [List.idxOf_cons_ne _ ha, List.idxOf_cons_ne _ hb]
      exact Nat.succ_lt_succ (ih hnd.2 h)
    | cons_cons _ h =>
      have hb : a ≠ b := fun heq ↦ hnd.1 (heq ▸ List.singleton_sublist.mp h)
      rw [List.idxOf_cons_self, List.idxOf_cons_ne _ hb]
      exact Nat.succ_pos _

theorem pair_of_mem_append {α : Type} {l l' : List α} {a b : α} (ha : a ∈ l) (hb : b ∈ l') :
    [a, b].Sublist (l ++ l') :=
  List.Sublist.append (List.singleton_sublist.mpr ha) (List.singleton_sublist.mpr hb)

namespace Graph

/-! ## Edges and paths

An arc is an edge seen from its source. Paths are taken along arcs, along forward arcs, or along any
other kind. -/

/-- Control can go from the end of `u` to `v`. -/
def Arc (g : Graph) (u v : BlockIndex) : Prop := v ∈ g.successors u

instance (g : Graph) (u v : BlockIndex) : Decidable (g.Arc u v) :=
  inferInstanceAs (Decidable (v ∈ g.successors u))

/-- An edge that is not a backedge. -/
def ForwardArc (g : Graph) (u v : BlockIndex) : Prop := g.Arc u v ∧ ⟨u, v⟩ ∉ g.backedges

/-- Control can reach `b` from the entry. -/
def Reachable (g : Graph) (b : BlockIndex) : Prop := Relation.ReflTransGen g.Arc 0 b

theorem Sound.arc_lt {g : Graph} (hg : g.Sound) {u v : BlockIndex} (h : g.Arc u v) :
    u < g.blockCount ∧ v < g.blockCount := by
  obtain ⟨i, -, hi, -, -⟩ := exists_op_of_mem_successors h
  exact ⟨lt_blockCount_of_mem_span (Span.last?_mem hi), hg.target_lt h⟩

end Graph

namespace Discovery

variable {g : Graph}

/-! ## The trace

The invariant of the search, for the path of active blocks and the list of finished ones, and what
entering a block, finishing it and noting a backedge do to it. -/

/-- The state `s` of a search whose active blocks are those of `path`, the block under visit
first. -/
structure Traced (g : Graph) (path : List BlockIndex) (s : Discovery) : Prop where
  size_eq : s.progress.size = g.blockCount
  active_iff : ∀ b : Nat, s.progress[b]? = some .active ↔ b ∈ path
  done_iff : ∀ b : Nat, s.progress[b]? = some .done ↔ b ∈ s.order
  nodup : (path.reverse ++ s.order).Nodup
  /-- An edge out of a finished block is a backedge or leads on. -/
  arc : ∀ u ∈ s.order, ∀ v ∈ g.successors u,
    ⟨u, v⟩ ∈ s.backedges.toList ∨ [u, v].Sublist s.order
  /-- A backedge leads back. -/
  back : ∀ e ∈ s.backedges.toList, g.Arc e.source e.header ∧
    (e.header = e.source ∨ [e.header, e.source].Sublist (path.reverse ++ s.order))
  /-- A block other than the entry was reached from a block above it. -/
  parent : ∀ b ∈ path.reverse ++ s.order, b = 0 ∨
    ∃ p, g.Arc p b ∧ [p, b].Sublist (path.reverse ++ s.order)

theorem traced_start (g : Graph) : Traced g [] (start g.blockCount) where
  size_eq := Array.size_replicate
  active_iff b := by
    rw [start, Array.getElem?_replicate]
    split <;> simp
  done_iff b := by
    rw [start, Array.getElem?_replicate]
    split <;> simp
  nodup := List.nodup_nil
  arc u hu := by cases hu
  back e he := by cases he
  parent b hb := by cases hb

namespace Traced

variable {path : List BlockIndex} {s : Discovery} {b : BlockIndex}

theorem mem_lt (h : Traced g path s) (hb : b ∈ path.reverse ++ s.order) : b < g.blockCount := by
  rw [← h.size_eq]
  rcases List.mem_append.mp hb with hb | hb
  · exact (Array.getElem?_eq_some_iff.mp ((h.active_iff b).mpr (List.mem_reverse.mp hb))).1
  · exact (Array.getElem?_eq_some_iff.mp ((h.done_iff b).mpr hb)).1

theorem not_mem_of_fresh (h : Traced g path s) (hb : s.progress[b]? = some .fresh) :
    b ∉ path.reverse ++ s.order := by
  intro hmem
  rcases List.mem_append.mp hmem with hmem | hmem
  · rw [(h.active_iff b).mpr (List.mem_reverse.mp hmem)] at hb
    cases hb
  · rw [(h.done_iff b).mpr hmem] at hb
    cases hb

/-- The path and the finished blocks do not fill the graph while a block is fresh. -/
theorem length_lt (h : Traced g path s) (hb : s.progress[b]? = some .fresh) :
    path.length + s.order.length < g.blockCount := by
  have hnd : (b :: (path.reverse ++ s.order)).Nodup :=
    List.nodup_cons.mpr ⟨h.not_mem_of_fresh hb, h.nodup⟩
  have hlt : ∀ c ∈ b :: (path.reverse ++ s.order), c ∈ List.range g.blockCount := by
    intro c hc
    rw [List.mem_range]
    rcases List.mem_cons.mp hc with rfl | hc
    · rw [← h.size_eq]
      exact (Array.getElem?_eq_some_iff.mp hb).1
    · exact h.mem_lt hc
  have := (List.subperm_of_subset hnd hlt).length_le
  rw [List.length_cons, List.length_append, List.length_reverse, List.length_range] at this
  exact this

/-- Entering a fresh block. -/
theorem enter (h : Traced g path s) (hb : s.progress[b]? = some .fresh)
    (hparent : b = 0 ∨ ∃ p ∈ path, g.Arc p b) : Traced g (b :: path) (s.mark b .active) := by
  have hlt : b < s.progress.size := (Array.getElem?_eq_some_iff.mp hb).1
  have hnew := h.not_mem_of_fresh hb
  have hget : ∀ c : Nat, (s.mark b .active).progress[c]?
      = if c = b then some .active else s.progress[c]? := by
    intro c
    by_cases hc : c = b
    · subst hc
      rw [if_pos rfl, mark, Array.getElem?_setIfInBounds_self_of_lt hlt]
    · rw [if_neg hc, mark, Array.getElem?_setIfInBounds_ne (Ne.symm hc)]
  have hlist : (b :: path).reverse ++ s.order = path.reverse ++ b :: s.order := by simp
  have hgrow : (path.reverse ++ s.order).Sublist ((b :: path).reverse ++ s.order) := by
    rw [hlist]
    exact List.Sublist.append (List.Sublist.refl _) (List.sublist_cons_self _ _)
  exact {
    size_eq := by rw [mark, Array.size_setIfInBounds, h.size_eq]
    active_iff := fun c ↦ by
      rw [hget, List.mem_cons, ← h.active_iff]
      split
      · rename_i hc
        simp [hc]
      · rename_i hc
        simp [hc]
    done_iff := fun c ↦ by
      rw [hget]
      split
      · rename_i hc
        subst hc
        simp only [Option.some.injEq, reduceCtorEq, false_iff]
        exact fun hmem ↦ hnew (List.mem_append_right _ hmem)
      · exact h.done_iff c
    nodup := by
      change ((b :: path).reverse ++ s.order).Nodup
      rw [hlist, List.nodup_middle, List.nodup_cons]
      exact ⟨hnew, h.nodup⟩
    arc := h.arc
    back := fun e he ↦ by
      obtain ⟨harc, hback⟩ := h.back e he
      exact ⟨harc, hback.imp_right fun hsub ↦ hsub.trans hgrow⟩
    parent := fun c hc ↦ by
      change c ∈ (b :: path).reverse ++ s.order at hc
      change c = 0 ∨ ∃ p, g.Arc p c ∧ [p, c].Sublist ((b :: path).reverse ++ s.order)
      rw [hlist, List.mem_append, List.mem_cons] at hc
      have hold : c ∈ path.reverse ++ s.order →
          c = 0 ∨ ∃ p, g.Arc p c ∧ [p, c].Sublist ((b :: path).reverse ++ s.order) := by
        intro hc
        exact (h.parent c hc).imp_right fun ⟨p, hp, hsub⟩ ↦ ⟨p, hp, hsub.trans hgrow⟩
      rcases hc with hc | rfl | hc
      · exact hold (List.mem_append_left _ hc)
      · refine hparent.imp_right fun ⟨p, hp, harc⟩ ↦ ⟨p, harc, ?_⟩
        rw [hlist]
        exact pair_of_mem_append (List.mem_reverse.mpr hp) List.mem_cons_self
      · exact hold (List.mem_append_right _ hc) }

private theorem note (h : Traced g (b :: path) s) {c : BlockIndex}
    (hc : s.progress[c]? = some .active) (harc : g.Arc b c) :
    Traced g (b :: path) { s with backedges := s.backedges.push ⟨b, c⟩ } where
  size_eq := h.size_eq
  active_iff := h.active_iff
  done_iff := h.done_iff
  nodup := h.nodup
  arc u hu v hv := by
    refine (h.arc u hu v hv).imp_left fun hmem ↦ ?_
    rw [Array.toList_push]
    exact List.mem_append_left _ hmem
  back e he := by
    rw [Array.toList_push, List.mem_append, List.mem_singleton] at he
    rcases he with he | rfl
    · exact h.back e he
    · refine ⟨harc, ?_⟩
      rcases List.mem_cons.mp ((h.active_iff c).mp hc) with rfl | hmem
      · exact Or.inl rfl
      · refine Or.inr ?_
        rw [List.reverse_cons, List.append_assoc]
        exact pair_of_mem_append (List.mem_reverse.mpr hmem) (by simp)
  parent := h.parent

private theorem finish (h : Traced g (b :: path) s)
    (hfollowed : ∀ c ∈ g.successors b, ⟨b, c⟩ ∈ s.backedges.toList ∨ c ∈ s.order) :
    Traced g path (s.finish b) := by
  -- finishing moves the block from the path to the order, and the sequence stays
  have hlist : path.reverse ++ (s.finish b).order = (b :: path).reverse ++ s.order := by
    simp [Discovery.finish]
  have hnd := h.nodup
  rw [← hlist] at hnd
  have hb : b ∉ path ∧ b ∉ s.order := by
    have := (List.nodup_middle.mp hnd)
    rw [List.nodup_cons, List.mem_append, not_or, List.mem_reverse] at this
    exact this.1
  have hlt : b < s.progress.size :=
    (Array.getElem?_eq_some_iff.mp ((h.active_iff b).mpr List.mem_cons_self)).1
  have hget : ∀ c : Nat, (s.finish b).progress[c]?
      = if c = b then some .done else s.progress[c]? := by
    intro c
    by_cases hc : c = b
    · subst hc
      rw [if_pos rfl, Discovery.finish, mark, Array.getElem?_setIfInBounds_self_of_lt hlt]
    · rw [if_neg hc, Discovery.finish, mark, Array.getElem?_setIfInBounds_ne (Ne.symm hc)]
  exact {
    size_eq := by rw [Discovery.finish, mark, Array.size_setIfInBounds, h.size_eq]
    active_iff := fun c ↦ by
      rw [hget]
      split
      · rename_i hc
        subst hc
        simp [hb.1]
      · rename_i hc
        rw [h.active_iff, List.mem_cons]
        simp [hc]
    done_iff := fun c ↦ by
      rw [hget]
      change _ ↔ c ∈ b :: s.order
      split
      · rename_i hc
        simp [hc]
      · rename_i hc
        rw [h.done_iff, List.mem_cons]
        simp [hc]
    nodup := hnd
    arc := fun u hu v hv ↦ by
      change u ∈ b :: s.order at hu
      change _ ∨ [u, v].Sublist (b :: s.order)
      rcases List.mem_cons.mp hu with rfl | hu
      · exact (hfollowed v hv).imp_right fun hmem ↦
          List.Sublist.cons_cons u (List.singleton_sublist.mpr hmem)
      · exact (h.arc u hu v hv).imp_right fun hsub ↦ hsub.cons b
    back := fun e he ↦ by rw [hlist]; exact h.back e he
    parent := fun c hc ↦ by rw [hlist] at hc ⊢; exact h.parent c hc }

end Traced

/-! ## The search

By induction on the depth, and inside it on the edges of the block under visit. What is finished
only grows, and every edge out of a finished block leads to a finished block or was noted. -/

def followEdge (g : Graph) (depth : Nat) (b : BlockIndex) (s : Discovery) (c : BlockIndex) :
    Discovery :=
  match s.progress[c]? with
  | some .fresh => visit g depth c s
  | some .active => { s with backedges := s.backedges.push ⟨b, c⟩ }
  | _ => s

theorem visit_succ (g : Graph) (depth : Nat) (b : BlockIndex) (s : Discovery) :
    visit g (depth + 1) b s
      = ((g.successors b).foldl (followEdge g depth b) (s.mark b .active)).finish b := rfl

/-- What a part of the search leaves as it was: finished blocks stay behind those that finish
later, and backedges are kept. -/
structure Grows (s s' : Discovery) : Prop where
  order : s.order.IsSuffix s'.order
  backedges : s.backedges.toList ⊆ s'.backedges.toList

theorem Grows.refl (s : Discovery) : Grows s s := ⟨List.suffix_rfl, List.Subset.refl _⟩

private theorem Grows.trans {s₁ s₂ s₃ : Discovery} (h : Grows s₁ s₂) (h' : Grows s₂ s₃) :
    Grows s₁ s₃ :=
  ⟨h.order.trans h'.order, List.Subset.trans h.backedges h'.backedges⟩

/-- Following one edge out of the block under visit, whatever the progress of its target, provided
that a visit does what it should. -/
theorem Traced.followEdge {depth : Nat} {b c : BlockIndex} {path : List BlockIndex} {s : Discovery}
    (h : Traced g (b :: path) s) (harc : g.Arc b c) (hc : c < g.blockCount)
    (hvisit : s.progress[c]? = some .fresh → Traced g (b :: path) (visit g depth c s) ∧
      Grows s (visit g depth c s) ∧ c ∈ (visit g depth c s).order) :
    Traced g (b :: path) (followEdge g depth b s c) ∧ Grows s (followEdge g depth b s c) ∧
      (⟨b, c⟩ ∈ (followEdge g depth b s c).backedges.toList ∨
        c ∈ (followEdge g depth b s c).order) := by
  obtain ⟨p, hp⟩ : ∃ p, s.progress[c]? = some p :=
    ⟨_, Array.getElem?_eq_getElem (h.size_eq ▸ hc)⟩
  rw [Discovery.followEdge]
  simp only [hp]
  cases p with
  | fresh =>
    obtain ⟨htraced, hgrows, hmem⟩ := hvisit hp
    exact ⟨htraced, hgrows, Or.inr hmem⟩
  | active => exact ⟨h.note hp harc, ⟨List.suffix_rfl, by simp⟩, Or.inl (by simp)⟩
  | done => exact ⟨h, .refl s, Or.inr ((h.done_iff c).mp hp)⟩

/-- Following a list of edges out of the block under visit, provided that visits do what they
should. -/
theorem foldl_followEdge {depth : Nat} {b : BlockIndex} {path : List BlockIndex}
    (hvisit : ∀ {c : BlockIndex} {s : Discovery}, Traced g (b :: path) s →
      s.progress[c]? = some .fresh → g.blockCount ≤ depth + ((b :: path).length + s.order.length) →
      g.Arc b c → Traced g (b :: path) (visit g depth c s) ∧ Grows s (visit g depth c s) ∧
        c ∈ (visit g depth c s).order) :
    ∀ {cs : List BlockIndex} {s : Discovery}, Traced g (b :: path) s →
      (∀ c ∈ cs, g.Arc b c ∧ c < g.blockCount) →
      g.blockCount ≤ depth + ((b :: path).length + s.order.length) →
      Traced g (b :: path) (cs.foldl (followEdge g depth b) s) ∧
        Grows s (cs.foldl (followEdge g depth b) s) ∧
        ∀ c ∈ cs, ⟨b, c⟩ ∈ (cs.foldl (followEdge g depth b) s).backedges.toList ∨
          c ∈ (cs.foldl (followEdge g depth b) s).order := by
  intro cs
  induction cs with
  | nil => exact fun {s} h _ _ ↦ ⟨h, .refl s, by simp⟩
  | cons c cs ih =>
    intro s h hcs hdepth
    rw [List.forall_mem_cons] at hcs
    obtain ⟨htraced, hgrows, hc⟩ :=
      h.followEdge hcs.1.1 hcs.1.2 fun hfresh ↦ hvisit h hfresh hdepth hcs.1.1
    have hlen := hgrows.order.length_le
    obtain ⟨htraced', hgrows', hcs'⟩ := ih htraced hcs.2 (by omega)
    rw [List.foldl_cons]
    refine ⟨htraced', hgrows.trans hgrows', List.forall_mem_cons.mpr ⟨?_, hcs'⟩⟩
    exact hc.imp (fun hmem ↦ hgrows'.backedges hmem) fun hmem ↦ hgrows'.order.subset hmem

/-- A visit finishes its block and leaves the path as it was. The blocks that are neither on the
path nor finished bound the depth that is needed. -/
theorem visit_traced (hg : g.Sound) : ∀ {depth : Nat} {b : BlockIndex} {path : List BlockIndex}
    {s : Discovery}, Traced g path s → s.progress[b]? = some .fresh →
    g.blockCount ≤ depth + (path.length + s.order.length) →
    (b = 0 ∨ ∃ p ∈ path, g.Arc p b) →
    Traced g path (visit g depth b s) ∧ Grows s (visit g depth b s) ∧
      (visit g depth b s).order.head? = some b := by
  intro depth
  induction depth with
  | zero =>
    intro b path s h hb hdepth _
    have := h.length_lt hb
    omega
  | succ depth ih =>
    intro b path s h hb hdepth hparent
    have hvisit : ∀ {c : BlockIndex} {s : Discovery}, Traced g (b :: path) s →
        s.progress[c]? = some .fresh →
        g.blockCount ≤ depth + ((b :: path).length + s.order.length) → g.Arc b c →
        Traced g (b :: path) (visit g depth c s) ∧ Grows s (visit g depth c s) ∧
          c ∈ (visit g depth c s).order := by
      intro c s hs hc hdepth harc
      obtain ⟨htraced, hgrows, hhead⟩ := ih hs hc hdepth (Or.inr ⟨b, List.mem_cons_self, harc⟩)
      exact ⟨htraced, hgrows, List.mem_of_head? hhead⟩
    obtain ⟨htraced, hgrows, hfollowed⟩ := foldl_followEdge hvisit (h.enter hb hparent)
      (fun c hc ↦ ⟨hc, hg.target_lt hc⟩) (by
        change g.blockCount ≤ depth + ((b :: path).length + s.order.length)
        rw [List.length_cons]
        omega)
    rw [visit_succ]
    refine ⟨htraced.finish hfollowed, ⟨?_, hgrows.backedges⟩, rfl⟩
    exact hgrows.order.trans (List.suffix_cons _ _)

/-- A visit to the target of an edge out of the block under visit. -/
theorem visit_of_arc (hg : g.Sound) {depth : Nat} {b c : BlockIndex} {path : List BlockIndex}
    {s : Discovery} (h : Traced g (b :: path) s) (hc : s.progress[c]? = some .fresh)
    (hdepth : g.blockCount ≤ depth + ((b :: path).length + s.order.length)) (harc : g.Arc b c) :
    Traced g (b :: path) (visit g depth c s) ∧ Grows s (visit g depth c s) ∧
      c ∈ (visit g depth c s).order := by
  obtain ⟨htraced, hgrows, hhead⟩ :=
    visit_traced hg h hc hdepth (Or.inr ⟨b, List.mem_cons_self, harc⟩)
  exact ⟨htraced, hgrows, List.mem_of_head? hhead⟩

/-- Following one edge out of the block under visit. -/
theorem followEdge_traced (hg : g.Sound) {depth : Nat} {b c : BlockIndex} {path : List BlockIndex}
    {s : Discovery} (h : Traced g (b :: path) s)
    (hdepth : g.blockCount ≤ depth + ((b :: path).length + s.order.length)) (harc : g.Arc b c) :
    Traced g (b :: path) (followEdge g depth b s c) ∧ Grows s (followEdge g depth b s c) := by
  obtain ⟨htraced, hgrows, -⟩ := h.followEdge harc (hg.target_lt harc) fun hfresh ↦
    visit_of_arc hg h hfresh hdepth harc
  exact ⟨htraced, hgrows⟩

end Discovery

namespace Graph

variable {g : Graph} (hg : g.Sound)

include hg

theorem discovery_traced : Discovery.Traced g [] g.discovery := by
  rw [discovery]
  split
  · exact Discovery.traced_start g
  · rename_i hpos
    refine (Discovery.visit_traced hg (Discovery.traced_start g) ?_ (by simp) (Or.inl rfl)).1
    rw [Discovery.start, Array.getElem?_replicate, if_pos (Nat.pos_of_ne_zero hpos)]

theorem discovery_head (hpos : 0 < g.blockCount) : g.discovery.order.head? = some 0 := by
  rw [discovery, if_neg (by omega)]
  refine (Discovery.visit_traced hg (Discovery.traced_start g) ?_ (by simp) (Or.inl rfl)).2.2
  rw [Discovery.start, Array.getElem?_replicate, if_pos hpos]

theorem nodup_discovery : g.discovery.order.Nodup := (discovery_traced hg).nodup

theorem discovery_lt {b : BlockIndex} (hb : b ∈ g.discovery.order) : b < g.blockCount :=
  (discovery_traced hg).mem_lt hb

/-- An edge out of a finished block is a backedge or leads on. -/
theorem backedge_or_pair {u v : BlockIndex} (hu : u ∈ g.discovery.order) (h : g.Arc u v) :
    ⟨u, v⟩ ∈ g.backedges ∨ [u, v].Sublist g.discovery.order :=
  (discovery_traced hg).arc u hu v h

theorem arc_of_backedge {e : Backedge} (he : e ∈ g.backedges) : g.Arc e.source e.header :=
  ((discovery_traced hg).back e he).1

/-- An edge out of a finished block is a backedge exactly if it does not lead forward in the order
of the search. -/
theorem backedge_iff {u v : BlockIndex} (hu : u ∈ g.discovery.order) (h : g.Arc u v) :
    ⟨u, v⟩ ∈ g.backedges ↔ g.discovery.order.idxOf v ≤ g.discovery.order.idxOf u := by
  constructor
  · intro he
    rcases ((discovery_traced hg).back _ he).2 with heq | hsub
    · exact Nat.le_of_eq (congrArg g.discovery.order.idxOf heq)
    · exact Nat.le_of_lt (idxOf_lt_idxOf_of_pair (nodup_discovery hg) hsub)
  · intro hle
    rcases backedge_or_pair hg hu h with he | hsub
    · exact he
    · exact absurd (idxOf_lt_idxOf_of_pair (nodup_discovery hg) hsub) (Nat.not_lt.mpr hle)

theorem idxOf_lt_of_forwardArc {u v : BlockIndex} (hu : u ∈ g.discovery.order)
    (h : g.ForwardArc u v) : g.discovery.order.idxOf u < g.discovery.order.idxOf v := by
  rw [← Nat.not_le, ← backedge_iff hg hu h.1]
  exact h.2

/-- Forward edges lead from the entry to every finished block. -/
theorem forward_path {b : BlockIndex} (hb : b ∈ g.discovery.order) :
    Relation.ReflTransGen g.ForwardArc 0 b := by
  -- the parent of a block stands closer to the front
  induction hn : g.discovery.order.idxOf b using Nat.strongRecOn generalizing b with
  | _ n ih =>
    subst hn
    rcases (discovery_traced hg).parent b hb with rfl | ⟨p, harc, hsub⟩
    · exact .refl
    · have hp : p ∈ g.discovery.order := hsub.subset (by simp)
      have hlt := idxOf_lt_idxOf_of_pair (nodup_discovery hg) hsub
      refine (ih _ hlt hp rfl).tail ⟨harc, ?_⟩
      rw [backedge_iff hg hp harc]
      exact Nat.not_le.mpr hlt

theorem mem_discovery_of_arc {u v : BlockIndex} (hu : u ∈ g.discovery.order) (h : g.Arc u v) :
    v ∈ g.discovery.order := by
  rcases backedge_or_pair hg hu h with he | hsub
  · rcases ((discovery_traced hg).back _ he).2 with heq | hsub
    · rw [show v = u from heq]
      exact hu
    · exact hsub.subset (by simp)
  · exact hsub.subset (by simp)

/-- The search finishes exactly the blocks that the entry reaches. -/
theorem mem_discovery_iff (hpos : 0 < g.blockCount) {b : BlockIndex} :
    b ∈ g.discovery.order ↔ g.Reachable b := by
  constructor
  · exact fun hb ↦ Relation.ReflTransGen.mono (fun _ _ h ↦ h.1) _ _ (forward_path hg hb)
  · intro hb
    induction hb with
    | refl => exact List.mem_of_head? (discovery_head hg hpos)
    | tail _ harc ih => exact mem_discovery_of_arc hg ih harc

end Graph

/-! ## Renaming

A search looks at the names of blocks only to tell them apart, so that it finds the same under
other names as long as the entry stays the entry. -/

namespace Discovery

/-- The states of two searches that differ in the names of the `n` blocks. -/
structure Mirrors (n : Nat) (β : BlockIndex → BlockIndex) (s s' : Discovery) : Prop where
  progress : ∀ b < n, s'.progress[β b]? = s.progress[b]?
  size_eq : s.progress.size = n
  size_eq' : s'.progress.size = n
  order : s'.order = s.order.map β
  backedges : s'.backedges.toList = s.backedges.toList.map fun e ↦ ⟨β e.source, β e.header⟩

variable {g g' : Graph} {β : BlockIndex → BlockIndex} {ω : OpIndex → OpIndex}

private theorem Mirrors.mark {s s' : Discovery} {p : Progress} {b : BlockIndex}
    (h : g.Renamed g' β ω) (hs : Mirrors g.blockCount β s s') (hb : b < g.blockCount) :
    Mirrors g.blockCount β (s.mark b p) (s'.mark (β b) p) where
  progress c hc := by
    rw [Discovery.mark, Discovery.mark]
    by_cases hbc : b = c
    · subst hbc
      rw [Array.getElem?_setIfInBounds_self_of_lt (hs.size_eq' ▸ h.block_lt hb),
        Array.getElem?_setIfInBounds_self_of_lt (hs.size_eq ▸ hb)]
    · rw [Array.getElem?_setIfInBounds_ne fun heq ↦ hbc (h.block_inj hb hc heq),
        Array.getElem?_setIfInBounds_ne hbc, hs.progress c hc]
  size_eq := by rw [Discovery.mark, Array.size_setIfInBounds, hs.size_eq]
  size_eq' := by rw [Discovery.mark, Array.size_setIfInBounds, hs.size_eq']
  order := hs.order
  backedges := hs.backedges

private theorem visit_mirrors (h : g.Renamed g' β ω) (hg : g.Sound) :
    ∀ (depth : Nat) {b : BlockIndex}
    {s s' : Discovery}, b < g.blockCount → Mirrors g.blockCount β s s' →
    Mirrors g.blockCount β (visit g depth b s) (visit g' depth (β b) s') := by
  intro depth
  induction depth with
  | zero => exact fun _ hs ↦ hs
  | succ depth ih =>
    intro b s s' hb hs
    have hstep : ∀ (cs : List BlockIndex) (s s' : Discovery), (∀ c ∈ cs, c < g.blockCount) →
        Mirrors g.blockCount β s s' →
        Mirrors g.blockCount β (cs.foldl (followEdge g depth b) s)
          ((cs.map β).foldl (followEdge g' depth (β b)) s') := by
      intro cs
      induction cs with
      | nil => exact fun _ _ _ hs ↦ hs
      | cons c cs ihcs =>
        intro s s' hcs hs
        rw [List.forall_mem_cons] at hcs
        refine ihcs _ _ hcs.2 ?_
        rw [followEdge, followEdge, hs.progress c hcs.1]
        rcases s.progress[c]? with _ | _ | _ | _
        · exact hs
        · exact ih hcs.1 hs
        · exact ⟨hs.progress, hs.size_eq, hs.size_eq', hs.order, by simp [hs.backedges]⟩
        · exact hs
    have hbelow := hstep (g.successors b) _ _ (fun c hc ↦ hg.target_lt hc)
      (hs.mark (p := .active) h hb)
    rw [visit_succ, visit_succ, h.successors_eq hg hb]
    have hdone := hbelow.mark (p := .done) h hb
    exact ⟨hdone.progress, hdone.size_eq, hdone.size_eq', by simp [finish, hbelow.order],
      hdone.backedges⟩

private theorem mirrors_start (h : g.Renamed g' β ω) :
    Mirrors g.blockCount β (start g.blockCount) (start g'.blockCount) where
  progress b hb := by
    simp only [start, Array.getElem?_replicate, h.blockCount_eq, if_pos hb, if_pos (h.block_lt hb)]
  size_eq := Array.size_replicate
  size_eq' := by rw [start, Array.size_replicate, h.blockCount_eq]
  order := rfl
  backedges := rfl

end Discovery

namespace Graph.Renamed

variable {g g' : Graph} {β : BlockIndex → BlockIndex} {ω : OpIndex → OpIndex}

theorem discovery_mirrors (h : g.Renamed g' β ω) (hg : g.Sound) (hentry : β 0 = 0) :
    Discovery.Mirrors g.blockCount β g.discovery g'.discovery := by
  have hstart := Discovery.mirrors_start h
  rw [discovery, discovery, h.blockCount_eq]
  rw [h.blockCount_eq] at hstart
  split
  · exact hstart
  · rename_i hpos
    have hvisit := Discovery.visit_mirrors h hg g.blockCount (Nat.pos_of_ne_zero hpos) hstart
    rwa [hentry] at hvisit

/-- The backedges of a renamed graph are the renamed backedges. -/
theorem mem_backedges_iff (h : g.Renamed g' β ω) (hg : g.Sound) (hentry : β 0 = 0)
    {u v : BlockIndex} (hu : u < g.blockCount) (hv : v < g.blockCount) :
    ⟨β u, β v⟩ ∈ g'.backedges ↔ ⟨u, v⟩ ∈ g.backedges := by
  rw [backedges, (h.discovery_mirrors hg hentry).backedges, List.mem_map]
  constructor
  · rintro ⟨⟨s, t⟩, he, heq⟩
    obtain ⟨hs, ht⟩ := Backedge.mk.inj heq
    have hlt := hg.arc_lt (arc_of_backedge hg he)
    rw [← h.block_inj hlt.1 hu hs, ← h.block_inj hlt.2 hv ht]
    exact he
  · exact fun he ↦ ⟨_, he, rfl⟩

end Graph.Renamed

end Flowgraph
