import Flowgraph.Proofs.Order.Fitness

/-!
# Reverse postorder and leftmost paths

Whether a graph is numbered in reverse postorder is a question about a search. Here it is turned
into one about paths. Among the paths along which the numbers rise, from the entry to a block `u`,
one is leftmost: at each of its blocks it takes the first edge that still leads to `u`. A graph is
in reverse postorder exactly if every edge that does not rise leads to a block on the leftmost path
to its source.

## Why the search follows leftmost paths

As long as all edges that do not rise turn out to be backedges, the active blocks form a rising
path, and the finished blocks are closed under rising edges. An edge that comes before the one the
search went down leads to finished blocks only, so the path is leftmost for every block that is not
finished. The first edge that breaks the rule ends this; it leads to a block that is finished later
than its source should allow, and the order of the search keeps that on record.
-/

namespace Flowgraph

namespace Graph

variable {g : Graph} {u x c h : BlockIndex}

/-! ## Rising paths

A path rises if each of its edges leads to a higher number. Among the rising paths to a block the
leftmost one is unique, and it is found by taking the first edge that still leads there. -/

/-- An edge to a block with a larger number. -/
def Rising (g : Graph) (u v : BlockIndex) : Prop := g.Arc u v ∧ u < v

/-- A path of rising edges leads from `x` to `u`. -/
def Leads (g : Graph) (x u : BlockIndex) : Prop := Relation.ReflTransGen g.Rising x u

private theorem Leads.le (h : g.Leads x u) : x ≤ u := by
  induction h with
  | refl => exact Nat.le_refl x
  | tail _ hrise ih => exact Nat.le_trans ih (Nat.le_of_lt hrise.2)

/-- In reverse postorder, rising edges lead from the entry to every block. -/
theorem leads_entry (hg : g.Sound) (hfit : g.Fit) (hord : g.InReversePostorder) {b : BlockIndex}
    (hb : b < g.blockCount) : g.Leads 0 b := by
  refine Relation.ReflTransGen.mono (fun x y harc ↦ ?_) _ _ (forward_path hg (hfit.reached b hb))
  exact ⟨harc.1, Nat.not_le.mp fun hle ↦ harc.2 ((hord x y harc.1).mpr hle)⟩

/-- Block `h` lies on the leftmost rising path from `x` to `u`. -/
inductive OnLeft (g : Graph) (u : BlockIndex) : BlockIndex → BlockIndex → Prop where
  | here {x : BlockIndex} : g.Leads x u → OnLeft g u x x
  | step {x c h : BlockIndex} {pre post : List BlockIndex} : g.successors x = pre ++ c :: post →
    x < c → g.Leads c u → (∀ d ∈ pre, x < d → ¬g.Leads d u) → OnLeft g u c h → OnLeft g u x h

private theorem onLeft_self : g.OnLeft u u h ↔ h = u := by
  constructor
  · intro hon
    cases hon with
    | here => rfl
    | step _ hlt hleads => exact absurd hleads.le (Nat.not_le.mpr hlt)
  · rintro rfl
    exact .here .refl

theorem OnLeft.leads (hon : g.OnLeft u x h) : g.Leads x u := by
  cases hon with
  | here hleads => exact hleads
  | step hsplit hlt hleads => exact hleads.head ⟨by rw [Arc, hsplit]; simp, hlt⟩

private theorem onLeft_iff {pre post : List BlockIndex} (hsplit : g.successors x = pre ++ c :: post)
    (hlt : x < c) (hleads : g.Leads c u) (hfirst : ∀ d ∈ pre, x < d → ¬g.Leads d u) :
    g.OnLeft u x h ↔ h = x ∨ g.OnLeft u c h := by
  constructor
  · intro hon
    cases hon with
    | here => exact Or.inl rfl
    | @step _ c' _ pre' post' hsplit' hlt' hleads' hfirst' hon =>
      rw [hsplit] at hsplit'
      have hc : c = c' := by
        rcases List.append_eq_append_iff.mp hsplit' with ⟨l, rfl, hl⟩ | ⟨l, rfl, hl⟩
        · cases l with
          | nil => exact (List.cons.inj hl).1
          | cons d l =>
            obtain ⟨rfl, -⟩ := List.cons.inj hl
            exact absurd hleads (hfirst' c (by simp) hlt)
        · cases l with
          | nil => exact (List.cons.inj hl).1.symm
          | cons d l =>
            obtain ⟨rfl, -⟩ := List.cons.inj hl
            exact absurd hleads' (hfirst c' (by simp) hlt')
      exact Or.inr (hc ▸ hon)
  · rintro (rfl | hon)
    · have harc : g.Arc h c := by rw [Arc, hsplit]; simp
      exact .here (hleads.head ⟨harc, hlt⟩)
    · exact .step hsplit hlt hleads hfirst hon

end Graph

namespace Discovery

variable {g : Graph} {path : List BlockIndex} {s s' : Discovery} {b : BlockIndex}

/-! ## Searches without a false step

As long as the search is clean it follows leftmost paths. Once an edge breaks the rule it is
spoiled, and stays so to the end. -/

/-- So far the search took rising edges only, and every edge that does not rise was a backedge. -/
structure Clean (g : Graph) (path : List BlockIndex) (s : Discovery) : Prop where
  rising : path.Pairwise (· > ·)
  closed : ∀ y ∈ s.order, ∀ z, g.Rising y z → z ∈ s.order
  falling : ∀ y ∈ s.order, ∀ z, g.Arc y z → z ≤ y → ⟨y, z⟩ ∈ s.backedges.toList
  noted : ∀ e ∈ s.backedges.toList, e.header ≤ e.source ∧ g.OnLeft e.source 0 e.header

/-- An edge that does not rise leads away from the leftmost path to its source, and its target is
not above the source in the order of the search. -/
def Spoiled (g : Graph) (path : List BlockIndex) (s : Discovery) : Prop :=
  ∃ u h, g.Arc u h ∧ h ≤ u ∧ ¬g.OnLeft u 0 h ∧ [u, h].Sublist (path.reverse ++ s.order)

/-- The leftmost path to a block that is not finished goes along the active blocks. -/
def Threads (g : Graph) (path : List BlockIndex) (b : BlockIndex) (order : List BlockIndex) :
    Prop :=
  ∀ u ∉ order, g.Leads b u → ∀ h, g.OnLeft u 0 h ↔ h ∈ path ∨ g.OnLeft u b h

private theorem Threads.grows (h : Threads g path b s.order) (hgrows : Grows s s') :
    Threads g path b s'.order :=
  fun u hu ↦ h u fun hmem ↦ hu (hgrows.order.subset hmem)

private theorem Spoiled.grows (h : Spoiled g path s) (hgrows : Grows s s') : Spoiled g path s' := by
  obtain ⟨u, v, harc, hle, hleft, hpair⟩ := h
  exact ⟨u, v, harc, hle, hleft,
    hpair.trans (List.Sublist.append (List.Sublist.refl _) hgrows.order.sublist)⟩

private theorem Clean.leads_mem (h : Clean g path s) {y u : BlockIndex} (hy : y ∈ s.order)
    (hleads : g.Leads y u) : u ∈ s.order := by
  induction hleads with
  | refl => exact hy
  | tail _ hrise ih => exact h.closed _ ih _ hrise

private theorem onLeft_iff_mem (ht : Traced g (b :: path) s) (hthreads : Threads g path b s.order)
    {h : BlockIndex} : g.OnLeft b 0 h ↔ h ∈ b :: path := by
  have hb : b ∉ s.order := fun hmem ↦ by
    have hactive := (ht.active_iff b).mpr List.mem_cons_self
    rw [(ht.done_iff b).mpr hmem] at hactive
    cases hactive
  rw [hthreads b hb .refl, Graph.onLeft_self, List.mem_cons, or_comm]

/-- What is known of the edges out of block `b` that were followed already. -/
structure Followed (b : BlockIndex) (pre : List BlockIndex) (s : Discovery) : Prop where
  rising : ∀ d ∈ pre, b < d → d ∈ s.order
  falling : ∀ d ∈ pre, d ≤ b → ⟨b, d⟩ ∈ s.backedges.toList

private theorem Followed.concat {pre : List BlockIndex} {c : BlockIndex} (h : Followed b pre s)
    (hgrows : Grows s s') (hrising : b < c → c ∈ s'.order)
    (hfalling : c ≤ b → ⟨b, c⟩ ∈ s'.backedges.toList) : Followed b (pre ++ [c]) s' where
  rising d hd hlt := by
    rw [List.mem_append, List.mem_singleton] at hd
    rcases hd with hd | rfl
    · exact hgrows.order.subset (h.rising d hd hlt)
    · exact hrising hlt
  falling d hd hle := by
    rw [List.mem_append, List.mem_singleton] at hd
    rcases hd with hd | rfl
    · exact hgrows.backedges (h.falling d hd hle)
    · exact hfalling hle

/-- The leftmost paths behind an edge that was not followed yet. -/
private theorem Threads.next {pre post : List BlockIndex} {c : BlockIndex}
    (hthreads : Threads g path b s.order) (hclean : Clean g (b :: path) s)
    (hfollowed : Followed b pre s) (hsplit : g.successors b = pre ++ c :: post) (hlt : b < c) :
    Threads g (b :: path) c s.order := by
  intro u hu hleads h
  have harc : g.Arc b c := by rw [Graph.Arc, hsplit]; simp
  rw [hthreads u hu (hleads.head ⟨harc, hlt⟩), List.mem_cons,
    Graph.onLeft_iff hsplit hlt hleads fun d hd hbd hd' ↦
      hu (hclean.leads_mem (hfollowed.rising d hd hbd) hd')]
  tauto

private theorem followEdge_clean {depth : Nat} {pre post : List BlockIndex} {c : BlockIndex}
    (ht : Traced g (b :: path) s) (hclean : Clean g (b :: path) s)
    (hthreads : Threads g path b s.order) (hfollowed : Followed b pre s)
    (hsplit : g.successors b = pre ++ c :: post) (hlt : c < g.blockCount)
    (hgrows : Grows s (followEdge g depth b s c))
    (hvisit : s.progress[c]? = some .fresh → c ∈ (visit g depth c s).order ∧
      (b < c → Threads g (b :: path) c s.order →
        Clean g (b :: path) (visit g depth c s) ∨ Spoiled g (b :: path) (visit g depth c s))) :
    (Clean g (b :: path) (followEdge g depth b s c) ∧
        Followed b (pre ++ [c]) (followEdge g depth b s c)) ∨
      Spoiled g (b :: path) (followEdge g depth b s c) := by
  have harc : g.Arc b c := by rw [Graph.Arc, hsplit]; simp
  obtain ⟨p, hp⟩ : ∃ p, s.progress[c]? = some p :=
    ⟨_, Array.getElem?_eq_getElem (by rw [ht.size_eq]; exact hlt)⟩
  have hnot : p ≠ .active → c ∉ b :: path := fun hne hmem ↦
    hne (Option.some.inj (hp.symm.trans ((ht.active_iff c).mpr hmem)))
  have hspoils : c ≤ b → c ∉ b :: path → c ∈ (followEdge g depth b s c).order →
      Spoiled g (b :: path) (followEdge g depth b s c) := fun hle hnot hmem ↦
    ⟨b, c, harc, hle, fun hleft ↦ hnot ((onLeft_iff_mem ht hthreads).mp hleft),
      pair_of_mem_append (by simp) hmem⟩
  rw [followEdge, hp] at hgrows hspoils ⊢
  cases p with
  | fresh =>
    obtain ⟨hmem, hbelow⟩ := hvisit hp
    rcases Nat.lt_or_ge b c with hbc | hle
    · refine (hbelow hbc (hthreads.next hclean hfollowed hsplit hbc)).imp_left fun h ↦ ⟨h, ?_⟩
      exact hfollowed.concat hgrows (fun _ ↦ hmem) fun hle ↦ absurd hbc (Nat.not_lt.mpr hle)
    · exact Or.inr (hspoils hle (hnot (by simp)) hmem)
  | active =>
    have hmem := (ht.active_iff c).mp hp
    have hle : c ≤ b := by
      rcases List.mem_cons.mp hmem with rfl | hmem
      · exact Nat.le_refl c
      · exact Nat.le_of_lt ((List.pairwise_cons.mp hclean.rising).1 c hmem)
    refine Or.inl ⟨⟨hclean.rising, hclean.closed, fun y hy z harc' hle' ↦ ?_, fun e he ↦ ?_⟩, ?_⟩
    · exact hgrows.backedges (hclean.falling y hy z harc' hle')
    · rw [Array.toList_push, List.mem_append, List.mem_singleton] at he
      rcases he with he | rfl
      · exact hclean.noted e he
      · exact ⟨hle, (onLeft_iff_mem ht hthreads).mpr hmem⟩
    · exact hfollowed.concat hgrows (fun hbc ↦ absurd hbc (Nat.not_lt.mpr hle)) fun _ ↦ by simp
  | done =>
    have hmem := (ht.done_iff c).mp hp
    rcases Nat.lt_or_ge b c with hbc | hle
    · exact Or.inl ⟨hclean, hfollowed.concat hgrows (fun _ ↦ hmem)
        fun hle ↦ absurd hbc (Nat.not_lt.mpr hle)⟩
    · exact Or.inr (hspoils hle (hnot (by simp)) hmem)

private theorem foldl_followEdge_clean (hg : g.Sound) {depth : Nat}
    (hvisit : ∀ {c : BlockIndex} {s : Discovery}, Traced g (b :: path) s →
      s.progress[c]? = some .fresh → g.blockCount ≤ depth + ((b :: path).length + s.order.length) →
      g.Arc b c → Clean g (b :: path) s → b < c → Threads g (b :: path) c s.order →
      Clean g (b :: path) (visit g depth c s) ∨ Spoiled g (b :: path) (visit g depth c s)) :
    ∀ {cs pre : List BlockIndex} {s : Discovery}, Traced g (b :: path) s →
      Clean g (b :: path) s → Threads g path b s.order → Followed b pre s →
      g.successors b = pre ++ cs → g.blockCount ≤ depth + ((b :: path).length + s.order.length) →
      (Clean g (b :: path) (cs.foldl (followEdge g depth b) s) ∧
          Followed b (pre ++ cs) (cs.foldl (followEdge g depth b) s)) ∨
        Spoiled g (b :: path) (cs.foldl (followEdge g depth b) s) := by
  intro cs
  induction cs with
  | nil =>
    intro pre s ht hclean _ hfollowed _ _
    rw [List.append_nil]
    exact Or.inl ⟨hclean, hfollowed⟩
  | cons c cs ih =>
    intro pre s ht hclean hthreads hfollowed hsplit hdepth
    have hmem : ∀ d ∈ c :: cs, g.Arc b d := fun d hd ↦ by
      rw [Graph.Arc, hsplit]
      exact List.mem_append_right _ hd
    have harc := hmem c List.mem_cons_self
    obtain ⟨ht₁, hgrows₁⟩ := followEdge_traced hg ht hdepth harc
    have hdepth₁ : g.blockCount
        ≤ depth + ((b :: path).length + (followEdge g depth b s c).order.length) := by
      have := hgrows₁.order.length_le
      omega
    rw [List.foldl_cons]
    rcases followEdge_clean ht hclean hthreads hfollowed hsplit (hg.target_lt harc) hgrows₁
      (fun hc ↦ ⟨(visit_of_arc hg ht hc hdepth harc).2.2, hvisit ht hc hdepth harc hclean⟩)
      with ⟨hclean₁, hfollowed₁⟩ | hspoiled
    · have hrest := ih ht₁ hclean₁ (hthreads.grows hgrows₁) hfollowed₁
        (by rw [hsplit, List.append_assoc, List.singleton_append]) hdepth₁
      rwa [List.append_assoc, List.singleton_append] at hrest
    -- once spoiled, the search stays so, whatever the other edges are
    · have hcs : ∀ d ∈ cs, g.Arc b d ∧ d < g.blockCount := fun d hd ↦
        ⟨hmem d (List.mem_cons_of_mem c hd), hg.target_lt (hmem d (List.mem_cons_of_mem c hd))⟩
      obtain ⟨-, hgrows, -⟩ := foldl_followEdge (visit_of_arc hg) ht₁ hcs hdepth₁
      exact Or.inr (hspoiled.grows hgrows)

private theorem visit_clean (hg : g.Sound) : ∀ {depth : Nat} {b : BlockIndex}
    {path : List BlockIndex} {s : Discovery}, Traced g path s → s.progress[b]? = some .fresh →
    g.blockCount ≤ depth + (path.length + s.order.length) → (b = 0 ∨ ∃ p ∈ path, g.Arc p b) →
    Clean g path s → (∀ p ∈ path, p < b) → Threads g path b s.order →
    Clean g path (visit g depth b s) ∨ Spoiled g path (visit g depth b s) := by
  intro depth
  induction depth with
  | zero =>
    intro b path s ht hb hdepth
    have := ht.length_lt hb
    omega
  | succ depth ih =>
    intro b path s ht hb hdepth hparent hclean hrising hthreads
    have hclean₀ : Clean g (b :: path) (s.mark b .active) :=
      ⟨List.pairwise_cons.mpr ⟨hrising, hclean.rising⟩, hclean.closed, hclean.falling,
        hclean.noted⟩
    have hbelow : ∀ p ∈ b :: path, ∀ {c}, b < c → p < c := fun p hp c hbc ↦ by
      rcases List.mem_cons.mp hp with rfl | hp
      · exact hbc
      · exact Nat.lt_trans (hrising p hp) hbc
    rw [visit_succ]
    rcases foldl_followEdge_clean hg (fun ht hc hdepth harc hclean hbc ↦
        ih ht hc hdepth (Or.inr ⟨b, by simp, harc⟩) hclean fun p hp ↦ hbelow p hp hbc)
      (ht.enter hb hparent) hclean₀ hthreads (⟨nofun, nofun⟩ : Followed b [] _)
      (List.nil_append _).symm (by
        change g.blockCount ≤ depth + ((b :: path).length + s.order.length)
        rw [List.length_cons]
        omega) with ⟨hclean', hfollowed⟩ | ⟨u, h, harc, hle, hleft, hpair⟩
    · rw [List.nil_append] at hfollowed
      refine Or.inl ⟨(List.pairwise_cons.mp hclean'.rising).2, fun y hy z hrise ↦ ?_,
        fun y hy z harc hle ↦ ?_, hclean'.noted⟩
      · rcases List.mem_cons.mp hy with rfl | hy
        · exact List.mem_cons_of_mem _ (hfollowed.rising z hrise.1 hrise.2)
        · exact List.mem_cons_of_mem _ (hclean'.closed y hy z hrise)
      · rcases List.mem_cons.mp hy with rfl | hy
        · exact hfollowed.falling z harc hle
        · exact hclean'.falling y hy z harc hle
    -- the edge that spoiled the search below is one for the whole search
    · refine Or.inr ⟨u, h, harc, hle, hleft, ?_⟩
      rw [List.reverse_cons, List.append_assoc, List.singleton_append] at hpair
      exact hpair

end Discovery

namespace Graph

variable {g : Graph} (hg : g.Sound)

include hg

theorem discovery_clean :
    Discovery.Clean g [] g.discovery ∨ Discovery.Spoiled g [] g.discovery := by
  have hstart : Discovery.Clean g [] (Discovery.start g.blockCount) :=
    ⟨.nil, by simp [Discovery.start], by simp [Discovery.start], by simp [Discovery.start]⟩
  rw [discovery]
  split
  · exact Or.inl hstart
  · rename_i hpos
    refine Discovery.visit_clean hg (Discovery.traced_start g) ?_ (by simp) (Or.inl rfl) hstart
      (by simp) fun u _ _ h ↦ by simp
    rw [Discovery.start, Array.getElem?_replicate, if_pos (Nat.pos_of_ne_zero hpos)]

/-- In reverse postorder, an edge that does not rise leads to the leftmost path to its source. -/
theorem InReversePostorder.onLeft (hord : g.InReversePostorder) {u h : BlockIndex}
    (harc : g.Arc u h) (hle : h ≤ u) : g.OnLeft u 0 h := by
  rcases discovery_clean hg with hclean | ⟨u', h', harc', hle', -, hpair⟩
  · exact (hclean.noted _ ((hord u h harc).mpr hle)).2
  · have hmem : u' ∈ g.discovery.order := hpair.subset (by simp)
    have hback := (hord u' h' harc').mpr hle'
    rw [backedge_iff hg hmem harc'] at hback
    exact absurd (idxOf_lt_idxOf_of_pair (nodup_discovery hg) hpair) (Nat.not_lt.mpr hback)

/-- A graph is in reverse postorder if every edge that does not rise leads to the leftmost path to
its source. -/
theorem inReversePostorder_of_onLeft (hreached : ∀ b < g.blockCount, b ∈ g.discovery.order)
    (hleft : ∀ u h, g.Arc u h → h ≤ u → g.OnLeft u 0 h) : g.InReversePostorder := by
  rcases discovery_clean hg with hclean | ⟨u, h, harc, hle, hnot, -⟩
  · intro u v harc
    exact ⟨fun hback ↦ (hclean.noted _ hback).1,
      fun hle ↦ hclean.falling u (hreached u (hg.arc_lt harc).1) v harc hle⟩
  · exact absurd (hleft u h harc hle) hnot

end Graph

end Flowgraph
