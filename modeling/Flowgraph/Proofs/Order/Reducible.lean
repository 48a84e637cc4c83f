import Flowgraph.Proofs.Order.Layout

/-!
# Layouts of reducible graphs

In a reducible graph a search that starts at the entry sees every block after its dominators, so
that the target of a backedge is never fresh when the edge is followed. Hence the search moves
along forward edges only, and the position in the order of the discovery search grows with the
depth. From this follow the two properties of the layout: a loop is laid out in one piece, its
header first, and every forward edge leads forward.

## Parked edges

The edges parked at a loop start inside the loop and end outside of it. The first makes their
targets come later than the header, the second keeps them out of everything that is laid out
before the loop is left.
-/

namespace Flowgraph

namespace Layout

open Flowgraph.Graph

/-- The search has come to each block on a walk of blocks that it has come to, and the edges
parked at a loop leave it. -/
structure Sane (g : Graph) (s : Layout) : Prop where
  fits : Fits g.loops s
  size_eq : s.progress.size = g.blockCount
  reached : ∀ b, s.Seen b →
    Relation.ReflTransGen (fun a b ↦ g.Arc a b ∧ s.Seen a ∧ s.Seen b) 0 b
  parked : ∀ {l : Nat} {loop : Loop} {v : BlockIndex}, g.loops[l]? = some loop →
    v ∈ s.parkedAt l →
    ¬g.InLoop loop.header v ∧ ∃ u, s.Seen u ∧ g.Arc u v ∧ g.InLoop loop.header u

/-- Block `c` is the entry, or an edge leads to it from a block of the innermost open loop that
the search has come to. -/
def Aimed (g : Graph) (s : Layout) (c : BlockIndex) : Prop :=
  (c = 0 ∧ s.openLoops = []) ∨
    ∃ u, s.Seen u ∧ g.Arc u c ∧
      ∀ {l : Nat} {loop : Loop}, s.openLoops.head? = some l → g.loops[l]? = some loop →
        g.InLoop loop.header u

variable {g : Graph} {s s' : Layout} {c : BlockIndex}

theorem Extends.aimed {n : List BlockIndex} (h : Extends s s' n) (hc : Aimed g s c) :
    Aimed g s' c := by
  rw [Aimed, h.open_eq]
  exact hc.imp_right fun ⟨u, hu, harc, hin⟩ ↦ ⟨u, h.seen hu, harc, hin⟩

/-- Sanity is about what is seen and what is parked. -/
theorem Sane.congr (h : Sane g s) (hfits : Fits g.loops s')
    (hsize : s'.progress.size = s.progress.size) (hseen : ∀ b, s'.Seen b ↔ s.Seen b)
    (hparked : s'.parked = s.parked) : Sane g s' where
  fits := hfits
  size_eq := hsize.trans h.size_eq
  reached b hb := by
    simp only [hseen] at hb ⊢
    exact h.reached b hb
  parked {l loop v} hl hv := by
    simp only [parkedAt, hparked] at hv
    simp only [hseen]
    exact h.parked hl hv

theorem seen_mark_active (hc : s.Fresh c) (b : BlockIndex) :
    (s.mark c .active).Seen b ↔ b = c ∨ s.Seen b := by
  rw [Seen, progress_mark hc.lt]
  split
  · rename_i heq
    simp [heq]
  · rename_i hne
    simp [hne, Seen]

theorem seen_entered (hc : s.Fresh c) : (s.mark c .active).Seen c :=
  (seen_mark_active hc c).mpr (Or.inl rfl)

theorem seen_mark_done (hc : s.Seen c) (b : BlockIndex) :
    (s.mark c .done).Seen b ↔ s.Seen b := by
  obtain ⟨p, hp, -⟩ := id hc
  rw [Seen, progress_mark (Array.getElem?_eq_some_iff.mp hp).1]
  split
  · rename_i heq
    simp [heq, hc]
  · rfl

/-- Coming to a fresh block. -/
theorem Sane.mark (h : Sane g s) (hc : s.Fresh c) (haim : Aimed g s c) :
    Sane g (s.mark c .active) := by
  have hseen := seen_mark_active hc
  have hmono : ∀ {a b}, Relation.ReflTransGen (fun a b ↦ g.Arc a b ∧ s.Seen a ∧ s.Seen b) a b →
      Relation.ReflTransGen (fun a b ↦ g.Arc a b ∧ (s.mark c .active).Seen a ∧
        (s.mark c .active).Seen b) a b := fun hpath ↦
    Relation.ReflTransGen.mono (fun a b ⟨harc, ha, hb⟩ ↦
      ⟨harc, (hseen a).mpr (Or.inr ha), (hseen b).mpr (Or.inr hb)⟩) _ _ hpath
  refine {
    fits := ⟨h.fits.parked_size, h.fits.open_lt⟩
    size_eq := (size_mark _ _ _).trans h.size_eq
    reached := fun b hb ↦ ?_
    parked := fun {l loop v} hl hv ↦ ?_ }
  · rcases (hseen b).mp hb with rfl | hb
    · rcases haim with ⟨rfl, -⟩ | ⟨u, hu, harc, -⟩
      · exact .refl
      · exact (hmono (h.reached u hu)).tail
          ⟨harc, (hseen u).mpr (Or.inr hu), (hseen b).mpr (Or.inl rfl)⟩
    · exact hmono (h.reached b hb)
  · obtain ⟨hout, u, hu, harc, hin⟩ := h.parked hl hv
    exact ⟨hout, u, (hseen u).mpr (Or.inr hu), harc, hin⟩

/-- Parking an edge that leaves the innermost open loop. -/
theorem Sane.park (h : Sane g s) {l : Nat} (hl : s.openLoops.head? = some l)
    (hout : ∀ loop, g.loops[l]? = some loop → ¬g.InLoop loop.header c) (haim : Aimed g s c) :
    Sane g (s.park l c) where
  fits := (Extends.park s l c).fits h.fits
  size_eq := h.size_eq
  reached := h.reached
  parked {k loop v} hk hv := by
    rw [parkedAt, Layout.park, Array.getElem?_modify] at hv
    split at hv
    · rename_i hlk
      subst hlk
      have hmem : v ∈ s.parkedAt l ∨ v = c := by
        rw [parkedAt]
        cases hp : s.parked[l]? with
        | none => simp [hp] at hv
        | some vs => simpa [hp] using hv
      rcases hmem with hv | rfl
      · exact h.parked hk hv
      · refine ⟨hout loop hk, ?_⟩
        rcases haim with ⟨-, hnil⟩ | ⟨u, hu, harc, hin⟩
        · rw [hnil] at hl
          cases hl
        · exact ⟨u, hu, harc, hin hl hk⟩
    · exact h.parked hk hv

/-- What dominates a block that is seen is seen. -/
theorem Sane.seen_of_dominates (h : Sane g s) {d b : BlockIndex} (hb : s.Seen b)
    (hd : g.Dominates d b) : s.Seen d := by
  have hpath := hd.path (fun _ _ harc ↦ harc.1) (h.reached b hb)
  rcases hpath.cases_head with rfl | ⟨c, hc, -⟩
  · exact hb
  · exact hc.2.1

theorem aimed_body {l : Nat} {loop : Loop} (hl : g.loops[l]? = some loop)
    (hc : s.Fresh loop.header) {v : BlockIndex} (hv : v ∈ g.successors loop.header) :
    Aimed g (s.enter loop.header l) v := by
  refine Or.inr ⟨loop.header, seen_entered hc, hv, ?_⟩
  intro k outer hk houter
  cases hk
  rw [hl] at houter
  cases houter
  exact inLoop_header _

theorem Sane.enter (hs : Sane g s) {l : Nat} {loop : Loop} (hl : g.loops[l]? = some loop)
    (hc : s.Fresh loop.header) (haim : Aimed g s loop.header) :
    Sane g (s.enter loop.header l) := by
  refine (hs.mark hc haim).congr ⟨hs.fits.parked_size, ?_⟩ rfl (fun _ ↦ Iff.rfl) rfl
  exact List.forall_mem_cons.mpr ⟨(List.getElem?_eq_some_iff.mp hl).1, hs.fits.open_lt⟩

theorem Sane.leave {inside : Layout} (hs : Sane g s) (hinside : Sane g inside)
    (hc : inside.Seen c) : Sane g (s.leave inside c) :=
  hinside.congr ⟨hinside.fits.parked_size, hs.fits.open_lt⟩ (size_mark _ _ _)
    (seen_mark_done hc) rfl

/-! ## Runs

A run through a list of edges starts from a sane state and aims inside the innermost open loop. Then
every fresh block is later than what was passed, and so is the target of every parked edge. -/

theorem inside_iff (hg : g.Sound) {l : Nat} {loop : Loop} (hl : g.loops[l]? = some loop) :
    Inside g.loops l c ↔ g.InLoop loop.header c := by
  have hspec := (loops_spec hg (List.mem_of_getElem? hl)).2.2 c
  rw [Inside, ← hspec]
  constructor
  · rintro ⟨loop', hl', hc⟩
    rwa [Option.some.inj (hl.symm.trans hl')]
  · exact fun hc ↦ ⟨loop, hl, hc⟩

/-- What the arguments of this module are about: a sound and reducible graph whose blocks are all
reached. -/
structure Regular (g : Graph) : Prop where
  sound : g.Sound
  reached : ∀ b < g.blockCount, b ∈ g.discovery.order
  reducible : g.Reducible

namespace Regular

variable (hr : Regular g)

include hr

theorem header_mem {loop : Loop} {l : Nat} (hl : g.loops[l]? = some loop) :
    loop.header ∈ g.headers := (loops_spec hr.sound (List.mem_of_getElem? hl)).1

/-- An admitted header brings its whole loop into the innermost open loop. -/
theorem admits_loop {l k : Nat} {loop outer : Loop} {x : BlockIndex}
    (hl : g.loops[l]? = some loop) (hadm : Admits g.loops s loop.header)
    (hk : s.openLoops.head? = some k) (houter : g.loops[k]? = some outer)
    (hx : g.InLoop loop.header x) : g.InLoop outer.header x :=
  hr.reducible.nested hr.sound hr.reached (hr.header_mem houter) (hr.header_mem hl)
    ((inside_iff hr.sound houter).mp (hadm k hk)) hx

/-- The edges out of an admitted block are aimed from inside the innermost open loop. -/
theorem aimed_successor (hc : s.Fresh c) (hadm : Admits g.loops s c) {v : BlockIndex}
    (hv : v ∈ g.successors c) : Aimed g (s.mark c .active) v :=
  Or.inr ⟨c, seen_entered hc, hv, fun hl hloop ↦
    (inside_iff hr.sound hloop).mp (hadm _ hl)⟩

/-- The edges parked at a loop are aimed from inside the loop around it. -/
theorem aimed_parked {inside : Layout} {l : Nat} {loop : Loop} (hl : g.loops[l]? = some loop)
    (hadm : Admits g.loops s loop.header) (hinside : Sane g inside)
    (hc : inside.Seen loop.header) {v : BlockIndex} (hv : v ∈ inside.parkedAt l) :
    Aimed g (s.leave inside loop.header) v := by
  obtain ⟨-, u, hu, harc, hin⟩ := hinside.parked hl hv
  refine Or.inr ⟨u, (seen_mark_done hc u).mpr hu, harc, fun hk houter ↦ ?_⟩
  exact hr.admits_loop hl hadm hk houter hin

private theorem sane_laid {cs n : List BlockIndex} (h : Laid g g.loops cs s s' n) (hs : Sane g s)
    (hcs : ∀ c ∈ cs, Aimed g s c) : Sane g s' := by
  induction h with
  | nil s => exact hs
  | skip _ _ ih => exact ih hs (List.forall_mem_cons.mp hcs).2
  | @park c cs s s' n l hc hl hout _ ih =>
    rw [List.forall_mem_cons] at hcs
    refine ih (hs.park hl (fun loop hloop ↦ ?_) hcs.1) hcs.2
    exact fun hin ↦ hout ((inside_iff hr.sound hloop).mpr hin)
  | @block c cs s below s' n m hc hadm _ hbelow _ ih₁ ih₂ =>
    rw [List.forall_mem_cons] at hcs
    have hseen := hbelow.extends.seen (seen_entered hc)
    have hput := hbelow.extends.put hc
    have hsane := ih₁ (hs.mark hc hcs.1) fun v hv ↦ hr.aimed_successor hc hadm hv
    refine ih₂ (hsane.congr (hput.fits hs.fits) (size_mark _ _ _)
      (seen_mark_done hseen) rfl) fun b hb ↦ hput.aimed (hcs.2 b hb)
  | @loop c cs s inside outside s' n₁ n₂ m l loop hc hadm hl hheader hinside houtside _ ih₁ ih₂
      ih₃ =>
    subst hheader
    rw [List.forall_mem_cons] at hcs
    have hseen := hinside.extends.seen (seen_entered hc)
    have hjoin := Extends.join hc hinside.extends houtside.extends
    have hsane := ih₁ (hs.enter hl hc hcs.1) fun v hv ↦ aimed_body hl hc hv
    -- the parked edges leave the loop, and what is around it is sane again once it is closed
    have hsane' := ih₂ (hs.leave hsane hseen) fun v hv ↦ hr.aimed_parked hl hadm hsane hseen hv
    exact ih₃ (hsane'.congr (hjoin.fits hs.fits) rfl (fun _ ↦ Iff.rfl) rfl)
      fun b hb ↦ hjoin.aimed (hcs.2 b hb)

/-! ## Positions

The position in the order of the discovery search grows with every block that is entered. -/

/-- An edge to a fresh block leads forward: the target of a backedge is seen before its source. -/
theorem rank_lt_of_fresh (hs : Sane g s) {u v : BlockIndex} (hu : s.Seen u) (harc : g.Arc u v)
    (hv : s.Fresh v) : g.rank u < g.rank v := by
  refine idxOf_lt_of_forwardArc hr.sound (hr.reached u (hr.sound.arc_lt harc).1)
    ⟨harc, fun hback ↦ ?_⟩
  exact not_fresh_of_seen (hs.seen_of_dominates hu (hr.reducible _ hback)) hv

private theorem rank_le_of_inLoop {h x : BlockIndex} (hh : h ∈ g.headers) (hx : g.InLoop h x) :
    g.rank h ≤ g.rank x := by
  obtain ⟨v, hv⟩ := mem_headers.mp hh
  have hlt := (hr.sound.arc_lt (arc_of_backedge hr.sound hv)).2
  rcases (hr.reducible.dominates hx).eq_or_rank_lt hr.sound (hr.reached h hlt)
    (hr.reached x (hx.lt hr.sound hlt)) with rfl | hlt
  · exact Nat.le_refl _
  · exact Nat.le_of_lt hlt

/-- The targets of the edges parked at a loop come later than its header. -/
private theorem rank_lt_of_parked {inside : Layout} (hinside : Sane g inside) {l : Nat}
    {loop : Loop} (hl : g.loops[l]? = some loop) {v : BlockIndex} (hv : v ∈ inside.parkedAt l)
    (hfresh : inside.Fresh v) : g.rank loop.header < g.rank v := by
  obtain ⟨-, u, hu, harc, hin⟩ := hinside.parked hl hv
  exact Nat.lt_of_le_of_lt (hr.rank_le_of_inLoop (hr.header_mem hl) hin)
    (hr.rank_lt_of_fresh hinside hu harc hfresh)

end Regular

/-! ## The arrangement of what is laid out

By induction on the derivation. A block goes in front of what is below it; a loop goes in front of
what its parked edges lead to, with its body in one piece; and no edge leads back from what is laid
out later. -/

/-- The blocks `n`, laid out from state `s`: all come at position `r` or later in the order of the
discovery search, all belong to the innermost open loop, forward edges between them lead forward,
and each loop whose header is among them stands together behind its header. -/
structure Arranged (g : Graph) (s : Layout) (r : Nat) (n : List BlockIndex) : Prop where
  rank : ∀ u ∈ n, r ≤ g.rank u
  inside : ∀ {l : Nat} {loop : Loop}, s.openLoops.head? = some l → g.loops[l]? = some loop →
    ∀ u ∈ n, g.InLoop loop.header u
  forward : ∀ u ∈ n, ∀ v ∈ n, g.ForwardArc u v → [u, v].Sublist n
  contiguous : ∀ h ∈ g.headers, h ∈ n →
    ∃ seg, (h :: seg).IsInfix n ∧ ∀ x, x ∈ h :: seg ↔ g.InLoop h x

namespace Arranged

variable {r : Nat} {n n₁ n₂ m : List BlockIndex}

private theorem nil (g : Graph) (s : Layout) (r : Nat) : Arranged g s r [] := by
  constructor <;> simp

private theorem append (hopen : s'.openLoops = s.openLoops) (h : Arranged g s r n)
    (h' : Arranged g s' r m) (hcross : ∀ u ∈ n, ∀ v ∈ m, ¬g.Arc u v) :
    Arranged g s r (m ++ n) where
  rank u hu := (List.mem_append.mp hu).elim (h'.rank u) (h.rank u)
  inside hl hloop u hu := (List.mem_append.mp hu).elim
    (h'.inside (hopen ▸ hl) hloop u) (h.inside hl hloop u)
  forward u hu v hv harc := by
    rcases List.mem_append.mp hu with hu | hu
    · rcases List.mem_append.mp hv with hv | hv
      · exact (h'.forward u hu v hv harc).trans (List.sublist_append_left m n)
      · exact pair_of_mem_append hu hv
    · rcases List.mem_append.mp hv with hv | hv
      · exact absurd harc.1 (hcross u hu v hv)
      · exact (h.forward u hu v hv harc).trans (List.sublist_append_right m n)
  contiguous k hk hmem := by
    rcases List.mem_append.mp hmem with hmem | hmem
    · obtain ⟨seg, hinfix, hseg⟩ := h'.contiguous k hk hmem
      exact ⟨seg, hinfix.trans (List.prefix_append m n).isInfix, hseg⟩
    · obtain ⟨seg, hinfix, hseg⟩ := h.contiguous k hk hmem
      exact ⟨seg, hinfix.trans (List.suffix_append m n).isInfix, hseg⟩

/-- A forward edge into `c` cannot come from what is laid out below `c`. -/
theorem pair_cons (hr : Regular g) (h : Arranged g s' (g.rank c + 1) n) {u v : BlockIndex}
    (hu : u ∈ c :: n) (hv : v ∈ c :: n) (harc : g.ForwardArc u v) : [u, v].Sublist (c :: n) := by
  have hlt := idxOf_lt_of_forwardArc hr.sound (hr.reached u (hr.sound.arc_lt harc.1).1) harc
  change g.rank u < g.rank v at hlt
  rcases List.mem_cons.mp hv with rfl | hvn
  · rcases List.mem_cons.mp hu with rfl | hun
    · exact absurd hlt (Nat.lt_irrefl _)
    · have := h.rank u hun
      omega
  · rcases List.mem_cons.mp hu with rfl | hun
    · exact List.Sublist.cons_cons u (List.singleton_sublist.mpr hvn)
    · exact (h.forward u hun v hvn harc).cons c

private theorem cons (hr : Regular g) (hc : ∀ loop ∈ g.loops, loop.header ≠ c)
    (hadm : Admits g.loops s c) (hrank : r ≤ g.rank c) (h : Arranged g s' (g.rank c + 1) n)
    (hopen : s'.openLoops = s.openLoops) : Arranged g s r (c :: n) where
  rank := List.forall_mem_cons.mpr ⟨hrank, fun u hu ↦ by have := h.rank u hu; omega⟩
  inside hl hloop := List.forall_mem_cons.mpr
    ⟨(inside_iff hr.sound hloop).mp (hadm _ hl), h.inside (hopen ▸ hl) hloop⟩
  forward _ hu _ hv harc := h.pair_cons hr hu hv harc
  contiguous k hk hmem := by
    rcases List.mem_cons.mp hmem with rfl | hmem
    · obtain ⟨loop, hloop, heq⟩ := (exists_loop_iff hr.sound).mpr (mem_headers.mp hk)
      exact absurd heq (hc loop hloop)
    · obtain ⟨seg, hinfix, hseg⟩ := h.contiguous k hk hmem
      exact ⟨seg, hinfix.trans (List.suffix_cons c n).isInfix, hseg⟩

private theorem loop (hr : Regular g) {l : Nat} {loop : Loop} {inside outside : Layout}
    (hl : g.loops[l]? = some loop) (hadm : Admits g.loops s loop.header)
    (hrank : r ≤ g.rank loop.header) (h₁ : Arranged g inside (g.rank loop.header + 1) n₁)
    (h₂ : Arranged g outside (g.rank loop.header + 1) n₂)
    (hinside : inside.openLoops = l :: s.openLoops) (houtside : outside.openLoops = s.openLoops)
    (hall : ∀ x, g.InLoop loop.header x → x ∈ loop.header :: n₁)
    (hdisj : ∀ x ∈ n₂, x ∉ loop.header :: n₁) : Arranged g s r (loop.header :: n₁ ++ n₂) := by
  have hbody : ∀ x, x ∈ loop.header :: n₁ ↔ g.InLoop loop.header x := fun x ↦
    ⟨fun hx ↦ (List.mem_cons.mp hx).elim (fun heq ↦ heq ▸ inLoop_header _)
      (h₁.inside (by rw [hinside]; rfl) hl x), hall x⟩
  exact {
    rank := fun u hu ↦ by
      rcases List.mem_append.mp hu with hu | hu
      · rcases List.mem_cons.mp hu with rfl | hu
        · exact hrank
        · have := h₁.rank u hu
          omega
      · have := h₂.rank u hu
        omega
    inside := fun hk houter u hu ↦ by
      rcases List.mem_append.mp hu with hu | hu
      · exact hr.admits_loop hl hadm hk houter ((hbody u).mp hu)
      · exact h₂.inside (houtside ▸ hk) houter u hu
    forward := fun u hu v hv harc ↦ by
      rcases List.mem_append.mp hu with hu | hu
      · rcases List.mem_append.mp hv with hv | hv
        · exact (h₁.pair_cons hr hu hv harc).trans (List.sublist_append_left _ _)
        · exact pair_of_mem_append hu hv
      · rcases List.mem_append.mp hv with hv | hv
        · -- control enters a loop only through its header, which comes too early
          by_cases hvh : v = loop.header
          · have hlt := idxOf_lt_of_forwardArc hr.sound
              (hr.reached u (hr.sound.arc_lt harc.1).1) harc
            change g.rank u < g.rank v at hlt
            have := h₂.rank u hu
            rw [hvh] at hlt
            omega
          · exact absurd (hall u (((hbody v).mp hv).of_arc hvh harc.1)) (hdisj u hu)
        · exact (h₂.forward u hu v hv harc).trans (List.sublist_append_right _ _)
    contiguous := fun k hk hmem ↦ by
      rcases List.mem_append.mp hmem with hmem | hmem
      · rcases List.mem_cons.mp hmem with rfl | hmem
        · exact ⟨n₁, (List.prefix_append _ n₂).isInfix, hbody⟩
        · obtain ⟨seg, hinfix, hseg⟩ := h₁.contiguous k hk hmem
          refine ⟨seg, hinfix.trans ?_, hseg⟩
          exact (List.suffix_cons _ n₁).isInfix.trans (List.prefix_append _ n₂).isInfix
      · obtain ⟨seg, hinfix, hseg⟩ := h₂.contiguous k hk hmem
        exact ⟨seg, hinfix.trans (List.suffix_append _ n₂).isInfix, hseg⟩ }

end Arranged

namespace Regular

variable (hr : Regular g)

include hr

/-- The body of a loop holds all members: none of them was seen before the header. -/
private theorem inLoop_laid {inside : Layout} {l : Nat} {loop : Loop} {n : List BlockIndex}
    (hs : Sane g s) (hl : g.loops[l]? = some loop) (hc : s.Fresh loop.header)
    (h : Laid g g.loops (g.successors loop.header) (s.enter loop.header l) inside n)
    (hinside : Sane g inside) {x : BlockIndex} (hx : g.InLoop loop.header x) :
    x ∈ loop.header :: n := by
  obtain ⟨htargets, hclosed⟩ := h.settled
    ⟨hs.fits.parked_size, List.forall_mem_cons.mpr
      ⟨(List.getElem?_eq_some_iff.mp hl).1, hs.fits.open_lt⟩⟩
  have hlt : x < g.blockCount := hx.lt hr.sound (hs.size_eq ▸ hc.lt)
  have hpath := hr.reducible.path_inside hr.sound (hr.reached x hlt) hx
  clear hlt hx
  -- by induction on the path from the header inside the loop, each block of which is in the body
  induction hpath with
  | refl => exact List.mem_cons_self
  | @tail y x _ harc ih =>
    have hsettled : inside.Settled x := by
      rcases List.mem_cons.mp ih with rfl | hy
      · exact htargets x harc.1.1
      · exact hclosed y hy x harc.1.1
    -- an edge to a member is not parked, so that its target is seen when the body is laid
    have hseen : inside.Seen x := by
      rcases hsettled with hnot | ⟨k, hk, hpark⟩
      · refine (seen_or_fresh ?_).resolve_right hnot
        rw [hinside.size_eq]
        exact (hr.sound.arc_lt harc.1.1).2
      · rw [h.extends.open_eq] at hk
        cases hk
        exact absurd harc.2 (hinside.parked hl hpark).1
    rcases h.extends.seen_or_mem hseen with hseen | hmem
    · rcases (seen_mark_active hc x).mp hseen with rfl | hseen
      · exact List.mem_cons_self
      -- a member that was seen before would have had its header seen before it
      · have := hs.seen_of_dominates hseen (hr.reducible.dominates harc.2)
        exact absurd hc (not_fresh_of_seen this)
    · exact List.mem_cons_of_mem _ hmem

omit hr in
/-- No edge leads from what is laid out to what is laid out later while the same loop is open:
its target would be parked, and a parked target lies outside the loop. -/
private theorem not_arc_later {cs₁ cs₂ n m : List BlockIndex} {s₁ : Layout}
    (h : Laid g g.loops cs₁ s s₁ n) (hs₁ : Sane g s₁) (hfits : Fits g.loops s)
    (h' : Laid g g.loops cs₂ s₁ s' m) {r : Nat} (hm : Arranged g s₁ r m) :
    ∀ u ∈ n, ∀ v ∈ m, ¬g.Arc u v := by
  intro u hu v hv harc
  rcases (h.settled hfits).2 u hu v harc with hnot | ⟨l, hl, hpark⟩
  · exact hnot (h'.extends.fresh v hv)
  · have hlt := hs₁.fits.open_lt l (List.mem_of_head? hl)
    have hloop := List.getElem?_eq_getElem hlt
    exact (hs₁.parked hloop hpark).1 (hm.inside hl hloop v hv)

/-- The run lemma of the layout. -/
theorem arranged {cs n : List BlockIndex} (h : Laid g g.loops cs s s' n) (hs : Sane g s)
    (hcs : ∀ c ∈ cs, Aimed g s c) {r : Nat} (hrank : ∀ c ∈ cs, s.Fresh c → r ≤ g.rank c) :
    Arranged g s r n := by
  induction h generalizing r with
  | nil s => exact .nil g s r
  | skip _ _ ih => exact ih hs (List.forall_mem_cons.mp hcs).2 (List.forall_mem_cons.mp hrank).2
  | @park c cs s s' n l hc hl hout _ ih =>
    rw [List.forall_mem_cons] at hcs hrank
    have hsane := hs.park hl
      (fun loop hloop hin ↦ hout ((inside_iff hr.sound hloop).mpr hin)) hcs.1
    have := ih hsane hcs.2 hrank.2
    exact ⟨this.rank, this.inside, this.forward, this.contiguous⟩
  | @block c cs s below s' n m hc hadm hno hbelow hlaid ih₁ ih₂ =>
    rw [List.forall_mem_cons] at hcs hrank
    have hput := hbelow.extends.put hc
    -- the block alone is a run of its own, after which the other edges are followed
    have hone := Laid.block hc hadm hno hbelow (.nil _)
    have hsane := hr.sane_laid hone hs (by simpa using hcs.1)
    have hmark := hs.mark hc hcs.1
    have h₁ : Arranged g (s.mark c .active) (g.rank c + 1) n :=
      ih₁ hmark (fun v hv ↦ hr.aimed_successor hc hadm hv) fun v hv hfresh ↦
        hr.rank_lt_of_fresh hmark (seen_entered hc) hv hfresh
    have h₂ : Arranged g (below.put c) r m :=
      ih₂ hsane (fun b hb ↦ hput.aimed (hcs.2 b hb)) fun b hb hfresh ↦
        hrank.2 b hb (hput.fresh_of_fresh hfresh).1
    exact (h₁.cons hr hno hadm (hrank.1 hc) rfl).append hput.open_eq h₂
      (not_arc_later hone hsane hs.fits hlaid h₂)
  | @loop c cs s inside outside s' n₁ n₂ m l loop hc hadm hl hheader hinside houtside hlaid ih₁
      ih₂ ih₃ =>
    subst hheader
    rw [List.forall_mem_cons] at hcs hrank
    have hseen := hinside.extends.seen (seen_entered hc)
    have hjoin := Extends.join hc hinside.extends houtside.extends
    have hone := Laid.loop hc hadm hl rfl hinside houtside (.nil _)
    have hsane := hr.sane_laid hone hs (by simpa using hcs.1)
    have henter := hs.enter hl hc hcs.1
    have haim : ∀ v ∈ g.successors loop.header, Aimed g (s.enter loop.header l) v :=
      fun v hv ↦ aimed_body hl hc hv
    have hsane₁ := hr.sane_laid hinside henter haim
    have hleave := hs.leave hsane₁ hseen
    have h₁ : Arranged g (s.enter loop.header l) (g.rank loop.header + 1) n₁ :=
      ih₁ henter haim fun v hv hfresh ↦ hr.rank_lt_of_fresh henter (seen_entered hc) hv hfresh
    have h₂ : Arranged g (s.leave inside loop.header) (g.rank loop.header + 1) n₂ :=
      ih₂ hleave (fun v hv ↦ hr.aimed_parked hl hadm hsane₁ hseen hv) fun v hv hfresh ↦
        hr.rank_lt_of_parked hsane₁ hl hv (fresh_of_leave hfresh)
    have h₃ : Arranged g (join inside outside loop.header) r m :=
      ih₃ hsane (fun b hb ↦ hjoin.aimed (hcs.2 b hb)) fun b hb hfresh ↦
        hrank.2 b hb (hjoin.fresh_of_fresh hfresh).1
    have hdisj : ∀ x ∈ n₂, x ∉ loop.header :: n₁ := fun x hx hx' ↦
      List.disjoint_of_nodup_append hjoin.nodup hx' hx
    refine (Arranged.loop hr hl hadm (hrank.1 hc) h₁ h₂ rfl rfl
      (fun x hx ↦ hr.inLoop_laid hs hl hc hinside hsane₁ hx) hdisj).append hjoin.open_eq h₃ ?_
    exact not_arc_later hone hsane hs.fits hlaid h₃

end Regular

end Layout

end Flowgraph
