import Flowgraph.Proofs.Order.Gathering

/-!
# The layout with a stack and links

The second search of a numberer lays the loops out. What the layout keeps as separate lists, one for
each open loop, is a single list of links here: the body of the innermost loop, then what was laid
out of the loop around it when that one was entered, and so on. A loop is closed by cutting that
list behind its body. The body stays in the table, where nothing refers to it but the record of its
loop, until what the parked edges lead to is laid out and the body goes in front of it.

## What a detached body relies on

Nothing touches it in the meantime, since the links of a block are written only when the block is
finished or when it stands last in a body that is put in front, and since the record of a loop is
written only while its header is on the stack. Both concern blocks that were fresh when the detour
began. `Keeps` says this of a whole run, and `Threads` what holds of the state in between.
-/

namespace Flowgraph

/-! ## Parked edges

Edges are parked at a loop only while it is open, so that what is parked at a closed loop can be
read at leisure. -/

namespace Layout

variable {s s' : Layout}

private theorem parkedAt_park_self {l : Nat} (hl : l < s.parked.size) (c : BlockIndex) :
    (s.park l c).parkedAt l = s.parkedAt l ++ [c] := by
  rw [parkedAt, park, Array.getElem?_modify, if_pos rfl, parkedAt, Array.getElem?_eq_getElem hl]
  rfl

theorem parkedAt_park_of_ne {l k : Nat} (hne : k ≠ l) (c : BlockIndex) :
    (s.park l c).parkedAt k = s.parkedAt k := by
  rw [parkedAt, park, Array.getElem?_modify, if_neg hne.symm, parkedAt]

variable {g : Graph} {loops : List Loop} {n : List BlockIndex}

/-- Nothing is parked at a loop that was closed. -/
theorem Laid.parkedAt_eq {cs : List BlockIndex} (h : Laid g loops cs s s' n) {l : Nat} {loop : Loop}
    (hl : loops[l]? = some loop) (hseen : ¬s.Fresh loop.header) (hclosed : l ∉ s.openLoops) :
    s'.parkedAt l = s.parkedAt l := by
  induction h with
  | nil => rfl
  | skip _ _ ih => exact ih hseen hclosed
  | park _ hk _ _ ih =>
    have hne : l ≠ _ := fun heq ↦ hclosed (heq ▸ List.mem_of_head? hk)
    exact (ih hseen hclosed).trans (parkedAt_park_of_ne hne _)
  | @block c _ s below _ _ _ hc _ _ hbelow _ ih₁ ih₂ =>
    have hput := hbelow.extends.put hc
    refine (ih₂ (fun hf ↦ hseen (hput.fresh_of_fresh hf).1) (hput.open_eq ▸ hclosed)).trans ?_
    exact ih₁ (fun hf ↦ hseen (fresh_of_mark (p := .active) nofun hf)) hclosed
  | @loop c _ s inside outside _ _ _ _ k loop' hc _ hk hheader hinside houtside _ ih₁ ih₂ ih₃ =>
    have hjoin := Extends.join hc hinside.extends houtside.extends
    have hne : l ≠ k := fun heq ↦ by
      rw [heq, hk] at hl
      cases hl
      exact hseen (hheader ▸ hc)
    have hinside_seen : ¬inside.Fresh loop.header := fun hf ↦
      hseen (fresh_of_mark (b := c) (p := .active) nofun (hinside.extends.fresh_of_fresh hf).1)
    refine (ih₃ (fun hf ↦ hseen (hjoin.fresh_of_fresh hf).1) (hjoin.open_eq ▸ hclosed)).trans ?_
    refine (ih₂ (fun hf ↦ hinside_seen (fresh_of_mark (b := c) (p := .done) nofun hf))
      hclosed).trans ?_
    exact ih₁ (fun hf ↦ hseen (fresh_of_mark (b := c) (p := .active) nofun hf))
      (by simp [enter, hne, hclosed])

end Layout

private theorem findIdx?_header {loops : List Loop} (hnd : (loops.map Loop.header).Nodup) {l : Nat}
    {loop : Loop} (hl : loops[l]? = some loop) :
    loops.findIdx? (·.header = loop.header) = some l := by
  have hlt := (List.getElem?_eq_some_iff.mp hl).1
  rw [List.findIdx?_eq_some_iff_getElem]
  refine ⟨hlt, ?_, fun j hj ↦ ?_⟩
  · rw [(List.getElem?_eq_some_iff.mp hl).2, decide_eq_true_iff]
  · rw [decide_eq_true_iff]
    intro heq
    have hl' : (loops.map Loop.header)[l]? = some loop.header := by rw [List.getElem?_map, hl]; rfl
    have hj' : (loops.map Loop.header)[j]? = some loop.header := by
      rw [List.getElem?_map, List.getElem?_eq_getElem (Nat.lt_trans hj hlt), Option.map_some, heq]
    have hlen : j < (loops.map Loop.header).length := by
      rw [List.length_map]
      exact Nat.lt_trans hj hlt
    exact Nat.ne_of_lt hj ((List.getElem?_inj hlen hnd).mp (hj'.trans hl'.symm))

/-- The mark of a block during the layout. A fresh block was visited by the first search. -/
def Progress.secondMark : Progress → Numberer.Mark
  | .fresh => .visited1
  | .active => .onStack
  | .done => .visited2

namespace Numberer

open Layout (Laid Extends Inside Admits join)

variable {g : Graph} {loops : List Loop}

/-! ## States

The list of the links is the body of the innermost open loop with everything behind it that was laid
out before. `Threads` holds of a state for itself, `Keeps` compares two of them. -/

/-- The state `m` of the numberer stands for the state `s` of the layout. The blocks of `rest` were
laid out before the innermost open loop was entered. -/
structure Threads (g : Graph) (loops : List Loop) (s : Layout) (rest : List BlockIndex)
    (m : Numberer) : Prop where
  next_size : m.next.size = g.blockCount
  progress_size : s.progress.size = g.blockCount
  marks : ∀ b ∈ g.discovery.order, m.marks[b]? = s.progress[b]?.map Progress.secondMark
  loopOf : ∀ b < g.blockCount, m.loopOf[b]? = some (loops.findIdx? (·.header = b))
  record : ∀ {l loop}, loops[l]? = some loop →
    ∃ r, m.loops[l]? = some r ∧ r.loop? = some loop ∧ r.outgoing = s.parkedAt l
  parked_size : s.parked.size = loops.length
  targets : ∀ l, ∀ c ∈ s.parkedAt l, c ∈ g.discovery.order
  open_eq : m.open? = s.openLoops.head?
  opened : ∀ l ∈ s.openLoops, ∃ loop, loops[l]? = some loop ∧ ¬s.Fresh loop.header
  links : Links m.next m.order? (s.order ++ rest)
  nodup : (s.order ++ rest).Nodup
  placed : ∀ b ∈ s.order ++ rest, b ∈ g.discovery.order ∧ ¬s.Fresh b

/-- Where the body of a loop stands. -/
def LoopRecord.place (r : LoopRecord) : Option Nat × Option BlockIndex × Option BlockIndex :=
  (r.around?, r.first?, r.behind?)

/-- Between `m` and `m'` nothing is changed about the blocks that were seen in `s`, neither their
links nor the place of their loops. -/
structure Keeps (loops : List Loop) (s : Layout) (m m' : Numberer) : Prop where
  next : ∀ b, ¬s.Fresh b → m'.next[b]? = m.next[b]?
  place : ∀ {l : Nat} {loop : Loop}, loops[l]? = some loop → ¬s.Fresh loop.header →
    m'.loops[l]?.map LoopRecord.place = m.loops[l]?.map LoopRecord.place

namespace Keeps

variable {s s' : Layout} {m m₁ m' : Numberer} {c : BlockIndex} {l : Nat}

theorem refl (s : Layout) (m : Numberer) : Keeps loops s m m := ⟨fun _ _ ↦ rfl, fun _ _ ↦ rfl⟩

theorem trans (h : Keeps loops s m m₁) (h' : Keeps loops s m₁ m') : Keeps loops s m m' :=
  ⟨fun b hb ↦ (h'.next b hb).trans (h.next b hb),
    fun hl hseen ↦ (h'.place hl hseen).trans (h.place hl hseen)⟩

/-- Later fewer blocks are fresh. -/
theorem mono (h : Keeps loops s' m m') (hfresh : ∀ b, s'.Fresh b → s.Fresh b) :
    Keeps loops s m m' :=
  ⟨fun b hb ↦ h.next b (mt (hfresh b) hb), fun hl hseen ↦ h.place hl (mt (hfresh _) hseen)⟩

end Keeps

/-- Writing the link of a fresh block. -/
theorem link_set_of_seen {s : Layout} {b d : BlockIndex} (hb : s.Fresh b) (hd : ¬s.Fresh d)
    (next : NextTable) (head : Option BlockIndex) :
    (next.setIfInBounds b head)[d]? = next[d]? :=
  Array.getElem?_setIfInBounds_ne fun heq ↦ hd ((heq : b = d) ▸ hb)

/-- Writing the record of a loop with a fresh header. -/
theorem record_set_of_seen {s : Layout} {k l : Nat} {loop loop' : Loop}
    (hk : loops[k]? = some loop') (hheader : s.Fresh loop'.header) (hl : loops[l]? = some loop)
    (hseen : ¬s.Fresh loop.header) (records : Array LoopRecord) (r : LoopRecord) :
    (records.setIfInBounds k r)[l]? = records[l]? :=
  Array.getElem?_setIfInBounds_ne fun heq ↦ by
    rw [heq, hl] at hk
    cases hk
    exact hseen hheader

/-! ## Single changes

Marking a block, moving the record of a loop and entering a block, each of which changes one table.
-/

namespace Threads

variable {s : Layout} {rest : List BlockIndex} {m : Numberer} {c : BlockIndex} {l : Nat}
  {loop : Loop}

theorem stack (h : Threads g loops s rest m) (st : List Frame) :
    Threads g loops s rest { m with stack := st } :=
  ⟨h.next_size, h.progress_size, h.marks, h.loopOf, h.record, h.parked_size, h.targets, h.open_eq,
    h.opened, h.links, h.nodup, h.placed⟩

theorem lt_marks (h : Threads g loops s rest m) (hg : g.Sound) (hc : c ∈ g.discovery.order) :
    c < m.marks.size := by
  have hlt : c < s.progress.size := h.progress_size ▸ Graph.discovery_lt hg hc
  have := h.marks c hc
  rw [Array.getElem?_eq_getElem hlt] at this
  exact (Array.getElem?_eq_some_iff.mp this).1

/-- A block gets a mark. -/
theorem mark (h : Threads g loops s rest m) (hg : g.Sound) (hc : c ∈ g.discovery.order)
    {p : Progress} (hp : p ≠ .fresh) :
    Threads g loops (s.mark c p) rest
      { m with marks := m.marks.setIfInBounds c p.secondMark } where
  next_size := h.next_size
  progress_size := (Layout.size_mark s c p).trans h.progress_size
  marks b hb := by
    rw [Layout.progress_mark (h.progress_size ▸ Graph.discovery_lt hg hc),
      getElem?_setIfInBounds_of_lt (h.lt_marks hg hc), h.marks b hb]
    split <;> rfl
  loopOf := h.loopOf
  record := h.record
  parked_size := h.parked_size
  targets := h.targets
  open_eq := h.open_eq
  opened k hk := by
    obtain ⟨loop, hloop, hseen⟩ := h.opened k hk
    exact ⟨loop, hloop, mt (Layout.fresh_of_mark hp) hseen⟩
  links := h.links
  nodup := h.nodup
  placed b hb := ⟨(h.placed b hb).1, mt (Layout.fresh_of_mark hp) (h.placed b hb).2⟩

/-- The place of a loop is written. -/
theorem move (h : Threads g loops s rest m) {r : LoopRecord} (hr : m.loops[l]? = some r)
    (r' : LoopRecord) (hloop : r'.loop? = r.loop?) (hout : r'.outgoing = r.outgoing) :
    Threads g loops s rest { m with loops := m.loops.setIfInBounds l r' } where
  next_size := h.next_size
  progress_size := h.progress_size
  marks := h.marks
  loopOf := h.loopOf
  record {k loop} hk := by
    obtain ⟨q, hq, hqloop, hqout⟩ := h.record hk
    change ∃ r, (m.loops.setIfInBounds l r')[k]? = some r ∧ _
    rw [getElem?_setIfInBounds_of_lt (Array.getElem?_eq_some_iff.mp hr).1]
    split
    · rename_i heq
      rw [heq, hr] at hq
      cases hq
      exact ⟨r', rfl, hloop.trans hqloop, hout.trans hqout⟩
    · exact ⟨q, hq, hqloop, hqout⟩
  parked_size := h.parked_size
  targets := h.targets
  open_eq := h.open_eq
  opened := h.opened
  links := h.links
  nodup := h.nodup
  placed := h.placed

/-- A block is put on the stack. -/
theorem entered (h : Threads g loops s rest m) (hg : g.Sound) (hc : c ∈ g.discovery.order) :
    Threads g loops (s.mark c .active) rest (m.entered g c) :=
  (h.mark hg hc (p := .active) nofun).stack _

private theorem park (h : Threads g loops s rest m) (hc : c ∈ g.discovery.order)
    (hl : s.openLoops.head? = some l) :
    ∃ m', m.park l c = pure m' ∧ m'.stack = m.stack ∧ Threads g loops (s.park l c) rest m' ∧
      Keeps loops s m m' := by
  obtain ⟨loop, hloop, -⟩ := h.opened l (List.mem_of_head? hl)
  obtain ⟨r, hr, hrloop, hrout⟩ := h.record hloop
  have hlt := (Array.getElem?_eq_some_iff.mp hr).1
  have hparked : l < s.parked.size := h.parked_size ▸ (List.getElem?_eq_some_iff.mp hloop).1
  refine ⟨{ m with loops := m.loops.setIfInBounds l { r with outgoing := r.outgoing ++ [c] } },
    by rw [Numberer.park, Attempt.read_of_some hr, pure_bind, Attempt.write_of_lt hlt, pure_bind],
    rfl, ?_, fun _ _ ↦ rfl, fun {k loop'} _ _ ↦ ?_⟩
  · exact {
      next_size := h.next_size
      progress_size := h.progress_size
      marks := h.marks
      loopOf := h.loopOf
      record := fun {k loop'} hk ↦ by
        change ∃ r', (m.loops.setIfInBounds l _)[k]? = some r' ∧ _
        rw [getElem?_setIfInBounds_of_lt hlt]
        by_cases hkl : k = l
        · rw [if_pos hkl, hkl, Layout.parkedAt_park_self hparked, ← hrout]
          rw [hkl, hloop] at hk
          cases hk
          exact ⟨_, rfl, hrloop, rfl⟩
        · rw [if_neg hkl, Layout.parkedAt_park_of_ne hkl]
          exact h.record hk
      parked_size := (Array.size_modify ..).trans h.parked_size
      targets := fun k d hd ↦ by
        by_cases hkl : k = l
        · rw [hkl, Layout.parkedAt_park_self hparked, List.mem_append, List.mem_singleton] at hd
          rcases hd with hd | rfl
          · exact h.targets l d hd
          · exact hc
        · rw [Layout.parkedAt_park_of_ne hkl] at hd
          exact h.targets k d hd
      open_eq := h.open_eq
      opened := h.opened
      links := h.links
      nodup := h.nodup
      placed := h.placed }
  · change (m.loops.setIfInBounds l _)[k]?.map _ = _
    rw [getElem?_setIfInBounds_of_lt hlt]
    split
    · rename_i heq
      rw [heq, hr]
      rfl
    · rfl

end Threads

/-! ## Turns

A turn looks at the block on top of the stack. `Reading` says which edges are left for it to follow:
its own, or those parked at its loop if that has been closed. -/

/-- The turns of the layout. Within one turn the body of a loop may have to be walked through. -/
abbrev LayoutGoes (g : Graph) : Numberer → Numberer → Prop := Goes g.blockCount (layoutStep g)

/-- The edges to `cs` are what is left to follow out of a block on the stack: edges of its own, or
edges that are parked at its loop once that is closed. -/
inductive Reading (g : Graph) (loops : List Loop) (s : Layout) (f : Frame) (cs : List BlockIndex) :
    Prop where
  | own : f.successors.drop f.index = cs → Reading g loops s f cs
  | parked {l : Nat} {loop : Loop} : loops[l]? = some loop → loop.header = f.block →
    f.block ∈ g.discovery.order → l ∉ s.openLoops → s.progress[f.block]? = some .done →
    f.successors.length ≤ f.index → (s.parkedAt l).drop (f.index - f.successors.length) = cs →
    Reading g loops s f cs

namespace Reading

variable {s s' : Layout} {f : Frame} {c : BlockIndex} {cs cs' n : List BlockIndex}

private theorem advance (h : Reading g loops s f (c :: cs)) :
    Reading g loops s { f with index := f.index + 1 } cs := by
  cases h with
  | own heq =>
    refine .own ?_
    rw [← List.drop_drop, heq]
    rfl
  | parked hl hheader hmem hclosed hdone hle heq =>
    refine .parked hl hheader hmem hclosed hdone (Nat.le_succ_of_le hle) ?_
    rw [Nat.succ_sub hle, Nat.succ_eq_add_one, ← List.drop_drop, heq]
    rfl

private theorem persist (h : Reading g loops s f cs) (hlaid : Laid g loops cs' s s' n) :
    Reading g loops s' f cs := by
  cases h with
  | own heq => exact .own heq
  | @parked l loop hl hheader hmem hclosed hdone hle heq =>
    have hext := hlaid.extends
    have hseen : ¬s.Fresh loop.header := by
      rw [hheader, Layout.Fresh, hdone]
      simp
    refine .parked hl hheader hmem (hext.open_eq ▸ hclosed) ?_ hle ?_
    · rw [hext.progress, hdone, ite_self]
    · rwa [hlaid.parkedAt_eq hl hseen hclosed]

end Reading

section Turns

variable {s : Layout} {rest : List BlockIndex} {m : Numberer} {c : BlockIndex}
  {cs : List BlockIndex} {f : Frame} {below : List Frame} {l : Nat} {loop : Loop}

theorem loopOf_header (hg : g.Sound) (hnd : (loops.map Loop.header).Nodup)
    (h : Threads g loops s rest m) (hl : loops[l]? = some loop)
    (hmem : loop.header ∈ g.discovery.order) : m.loopOf[loop.header]? = some (some l) := by
  rw [h.loopOf _ (Graph.discovery_lt hg hmem), findIdx?_header hnd hl]

/-- A block that is done is not closed again. -/
theorem settle_of_done (hg : g.Sound) (h : Threads g loops s rest m)
    (hmem : f.block ∈ g.discovery.order) (hdone : s.progress[f.block]? = some .done) :
    m.settle f = pure m := by
  have hmark := h.marks _ hmem
  rw [hdone, Option.map_some] at hmark
  rw [settle]
  split
  · rfl
  · simp only [Attempt.read_of_some (h.loopOf _ (Graph.discovery_lt hg hmem)), pure_bind]
    split
    · rfl
    · simp only [Attempt.read_of_some hmark, pure_bind]
      exact if_neg nofun

private theorem layoutStep_eq (hg : g.Sound) (hnd : (loops.map Loop.header).Nodup)
    (h : Threads g loops s rest m) (hstack : m.stack = f :: below)
    (hread : Reading g loops s f (c :: cs)) (fuel : Nat) :
    layoutStep g fuel m = (m.advanced f below).layoutEdge g c := by
  have hturn : m.settle f = pure m ∧ m.target? f = pure (some c) := by
    cases hread with
    | own heq =>
      have hget : f.successors[f.index]? = some c := by
        rw [← List.head?_drop, heq]
        rfl
      have hlt := (List.getElem?_eq_some_iff.mp hget).1
      exact ⟨by rw [settle, if_pos hlt], by rw [target?, hget]⟩
    | @parked l loop hl hheader hmem hclosed hdone hle heq =>
      refine ⟨settle_of_done hg h hmem hdone, ?_⟩
      obtain ⟨r, hr, -, hout⟩ := h.record hl
      have hnum := hheader ▸ loopOf_header hg hnd h hl (hheader ▸ hmem)
      have hget : r.outgoing[f.index - f.successors.length]? = some c := by
        rw [hout, ← List.head?_drop, heq]
        rfl
      simp only [target?, List.getElem?_eq_none hle, Attempt.read_of_some hnum, pure_bind,
        Attempt.read_of_some hr, hget]
  simp only [layoutStep, hstack, hturn, pure_bind]

end Turns

/-! ## Following edges

An edge is passed over, parked, or leads to a visit. `Crosses` is about one edge and `Follows` about
what is left of those of the block on top; following a list is following its edges one by one. -/

section Edges

variable {s : Layout} {rest : List BlockIndex} {m : Numberer} {c : BlockIndex} {l : Nat}

theorem contains_eq (h : Threads g loops s rest m) (hl : s.openLoops.head? = some l)
    (c : BlockIndex) :
    ∃ b, m.contains l c = pure b ∧ (b = true ↔ Inside loops l c) := by
  obtain ⟨loop, hloop, -⟩ := h.opened l (List.mem_of_head? hl)
  obtain ⟨r, hr, hrloop, -⟩ := h.record hloop
  refine ⟨loop.members.contains c, by simp only [contains, Attempt.read_of_some hr, pure_bind,
    hrloop], fun hin ↦ ⟨loop, hloop, hin⟩, ?_⟩
  rintro ⟨loop', hloop', hin⟩
  rw [hloop] at hloop'
  cases hloop'
  exact hin

private theorem layoutEdge_of_seen (hg : g.Sound) (h : Threads g loops s rest m)
    (hmem : c ∈ g.discovery.order) (hc : ¬s.Fresh c) : m.layoutEdge g c = pure m := by
  have hlt : c < s.progress.size := h.progress_size ▸ Graph.discovery_lt hg hmem
  obtain ⟨p, hp, hne⟩ := (Layout.seen_or_fresh hlt).resolve_right hc
  have hmark := h.marks c hmem
  rw [hp, Option.map_some] at hmark
  rw [layoutEdge, Attempt.read_of_some hmark, pure_bind]
  cases p with
  | fresh => exact absurd rfl hne
  | active => rfl
  | done => rfl

theorem mark_of_fresh (h : Threads g loops s rest m) (hmem : c ∈ g.discovery.order)
    (hc : s.Fresh c) : m.marks[c]? = some .visited1 := by
  rw [h.marks c hmem, hc]
  rfl

private theorem layoutEdge_of_admits (h : Threads g loops s rest m) (hmem : c ∈ g.discovery.order)
    (hc : s.Fresh c) (hadm : Admits loops s c) :
    m.layoutEdge g c = (m.entered g c).opened c := by
  have hmark := mark_of_fresh h hmem hc
  have henter : m.enter g c = (m.entered g c).opened c := by
    rw [enter, push_of_mark hmark, pure_bind]
  rw [layoutEdge, Attempt.read_of_some hmark, pure_bind, h.open_eq]
  cases hl : s.openLoops.head? with
  | none => exact henter
  | some l =>
    obtain ⟨b, hcontains, hb⟩ := contains_eq h hl c
    simp only [hcontains, pure_bind, hb.mpr (hadm l hl), if_true, henter]

private theorem layoutEdge_of_outside (h : Threads g loops s rest m) (hmem : c ∈ g.discovery.order)
    (hc : s.Fresh c) (hl : s.openLoops.head? = some l) (hout : ¬Inside loops l c) :
    m.layoutEdge g c = m.park l c := by
  obtain ⟨b, hcontains, hb⟩ := contains_eq h hl c
  rw [layoutEdge, Attempt.read_of_some (mark_of_fresh h hmem hc), pure_bind, h.open_eq, hl]
  simp only [hcontains, pure_bind, if_neg (mt hb.mp hout)]

end Edges

/-- Following the edge to `c` leads from `s` to `s'` and leaves the stack as it was. -/
def Crosses (g : Graph) (loops : List Loop) (c : BlockIndex) (s s' : Layout) : Prop :=
  ∀ (rest : List BlockIndex) (m : Numberer), Threads g loops s rest m →
    ∃ m₁ m', m.layoutEdge g c = pure m₁ ∧ LayoutGoes g m₁ m' ∧ m'.stack = m.stack ∧
      Threads g loops s' rest m' ∧ Keeps loops s m m'

/-- Following the edges to `cs`, if that is what is left of the block on top, leads from `s` to
`s'`. -/
def Follows (g : Graph) (loops : List Loop) (cs : List BlockIndex) (s s' : Layout) : Prop :=
  ∀ (rest : List BlockIndex) (m : Numberer) (f : Frame) (below : List Frame),
    Threads g loops s rest m → m.stack = f :: below → Reading g loops s f cs →
    ∃ m', LayoutGoes g m m' ∧ m'.stack = { f with index := f.index + cs.length } :: below ∧
      Threads g loops s' rest m' ∧ Keeps loops s m m'

private theorem follows_nil (s : Layout) : Follows g loops [] s s :=
  fun _ m _ _ h hstack _ ↦ ⟨m, .refl, hstack, h, .refl s m⟩

private theorem follows_cons (hg : g.Sound) (hnd : (loops.map Loop.header).Nodup) {s s₁ s' : Layout}
    {c : BlockIndex} {cs n : List BlockIndex} (hone : Laid g loops [c] s s₁ n)
    (hcross : Crosses g loops c s s₁) (hrest : Follows g loops cs s₁ s') :
    Follows g loops (c :: cs) s s' := by
  intro rest m f below h hstack hread
  obtain ⟨m₁, m₂, hedge, hgoes, hstack₂, h₂, hkeeps⟩ :=
    hcross rest (m.advanced f below) (h.stack _)
  obtain ⟨m', hgoes', hstack', h', hkeeps'⟩ :=
    hrest rest m₂ { f with index := f.index + 1 } below h₂ hstack₂ (hread.advance.persist hone)
  have hturn : Turns g.blockCount (layoutStep g) m m₁ := by
    refine ⟨by simp [hstack], fun fuel _ ↦ ?_⟩
    rw [layoutStep_eq hg hnd h hstack hread, hedge]
  refine ⟨m', .head hturn (hgoes.trans hgoes'), ?_, h', ?_⟩
  · rw [hstack', List.length_cons, Nat.add_right_comm, Nat.add_assoc]
  · exact Keeps.trans ⟨hkeeps.next, hkeeps.place⟩
      (hkeeps'.mono fun b hb ↦ (hone.extends.fresh_of_fresh hb).1)

private theorem crosses_skip (hg : g.Sound) {s : Layout} {c : BlockIndex}
    (hmem : c ∈ g.discovery.order) (hc : ¬s.Fresh c) : Crosses g loops c s s :=
  fun _ m h ↦ ⟨m, m, layoutEdge_of_seen hg h hmem hc, .refl, rfl, h, .refl s m⟩

private theorem crosses_park {s : Layout} {c : BlockIndex} {l : Nat} (hmem : c ∈ g.discovery.order)
    (hc : s.Fresh c) (hl : s.openLoops.head? = some l) (hout : ¬Inside loops l c) :
    Crosses g loops c s (s.park l c) := by
  intro rest m h
  obtain ⟨m', hpark, hstack, h', hkeeps⟩ := h.park hmem hl
  exact ⟨m', m', (layoutEdge_of_outside h hmem hc hl hout).trans hpark, .refl, hstack, h', hkeeps⟩

/-! ## A block

A block that heads no loop is entered, its edges are followed, and it goes to the front of the list.
-/

/-- The block under visit does not stand in the order yet. -/
theorem Threads.not_mem_of_fresh {s : Layout} {rest n : List BlockIndex} {m : Numberer}
    {c : BlockIndex} (h : Threads g loops s rest m) (hc : s.Fresh c)
    (hn : ∀ b ∈ n, (s.mark c .active).Fresh b) : c ∉ n ++ (s.order ++ rest) := by
  rw [List.mem_append, not_or]
  refine ⟨fun hmem ↦ ?_, fun hmem ↦ (h.placed c hmem).2 hc⟩
  exact Layout.not_fresh_mark (p := .active) nofun hc.lt (hn c hmem)

private theorem Threads.pop {s : Layout} {rest : List BlockIndex} {m : Numberer} {c : BlockIndex}
    (h : Threads g loops s rest m) (hg : g.Sound) (hmem : c ∈ g.discovery.order)
    (hnot : c ∉ s.order ++ rest) (below : List Frame) :
    ∃ m', m.pop c below .visited2 = pure m' ∧ m'.stack = below ∧
      Threads g loops (s.put c) rest m' ∧ m'.next = m.next.setIfInBounds c m.order? ∧
      m'.loops = m.loops := by
  have hlt := Graph.discovery_lt hg hmem
  have hnext : c < m.next.size := h.next_size ▸ hlt
  have hdone := h.mark hg hmem (p := .done) nofun
  let m' : Numberer := { m with
    next := m.next.setIfInBounds c m.order?
    marks := m.marks.setIfInBounds c .visited2
    order? := some c
    stack := below }
  refine ⟨m', by rw [Numberer.pop, Attempt.write_of_lt hnext, pure_bind,
    Attempt.write_of_lt (h.lt_marks hg hmem), pure_bind], rfl, ?_, rfl, rfl⟩
  exact {
    next_size := (Array.size_setIfInBounds ..).trans h.next_size
    progress_size := hdone.progress_size
    marks := hdone.marks
    loopOf := h.loopOf
    record := h.record
    parked_size := h.parked_size
    targets := h.targets
    open_eq := h.open_eq
    opened := hdone.opened
    links := h.links.push hnext hnot
    nodup := List.nodup_cons.mpr ⟨hnot, h.nodup⟩
    placed := List.forall_mem_cons.mpr
      ⟨⟨hmem, Layout.not_fresh_mark (p := .done) nofun (h.progress_size ▸ hlt)⟩, hdone.placed⟩ }

private theorem layoutStep_of_plain {m : Numberer} {f : Frame} {below : List Frame}
    (hstack : m.stack = f :: below) (hend : f.successors.length ≤ f.index)
    (hnone : m.loopOf[f.block]? = some none) (fuel : Nat) :
    layoutStep g fuel m = m.pop f.block below .visited2 := by
  have hsettle : m.settle f = pure m := by
    simp only [settle, if_neg (Nat.not_lt.mpr hend), Attempt.read_of_some hnone, pure_bind]
  have htarget : m.target? f = pure none := by
    simp only [target?, List.getElem?_eq_none hend, Attempt.read_of_some hnone, pure_bind]
  simp only [layoutStep, hstack, hsettle, htarget, pure_bind, retire, Attempt.read_of_some hnone]

/-- A block that heads no loop is visited: the edges out of it are followed, and then it is put in
front. -/
theorem goes_block (hg : g.Sound) {s below : Layout} {c : BlockIndex} {n rest : List BlockIndex}
    {m : Numberer} (h : Threads g loops s rest m) (hmem : c ∈ g.discovery.order) (hc : s.Fresh c)
    (hplain : ∀ loop ∈ loops, loop.header ≠ c)
    (hlaid : Laid g loops (g.successors c) (s.mark c .active) below n)
    (hfollows : Follows g loops (g.successors c) (s.mark c .active) below) :
    (m.entered g c).opened c = pure (m.entered g c) ∧
      ∃ m', LayoutGoes g (m.entered g c) m' ∧ m'.stack = m.stack ∧
        Threads g loops (below.put c) rest m' ∧ Keeps loops s m m' := by
  have hentered := h.entered hg hmem
  obtain ⟨m₁, hgoes, hstack, h₁, hkeeps⟩ := hfollows rest _ _ _ hentered rfl (.own List.drop_zero)
  have hnone : loops.findIdx? (·.header = c) = none :=
    List.findIdx?_eq_none_iff.mpr fun loop hloop ↦ decide_eq_false (hplain loop hloop)
  have hloopOf : ∀ {s : Layout} {rest : List BlockIndex} {m : Numberer},
      Threads g loops s rest m → m.loopOf[c]? = some none :=
    fun h ↦ (h.loopOf c (Graph.discovery_lt hg hmem)).trans (congrArg some hnone)
  have hnot : c ∉ below.order ++ rest := by
    have := h.not_mem_of_fresh hc hlaid.extends.fresh
    rwa [hlaid.extends.order_eq, List.append_assoc]
  obtain ⟨m', hpop, hstack', h', hnext, hloops⟩ := h₁.pop hg hmem hnot m.stack
  refine ⟨by simp only [opened, Attempt.read_of_some (hloopOf hentered), pure_bind], m',
    hgoes.tail ⟨by simp [hstack], fun fuel _ ↦ ?_⟩, hstack', h', ?_⟩
  · exact (layoutStep_of_plain hstack (Nat.le_add_left _ _) (hloopOf h₁) fuel).trans hpop
  · have hkeeps' := hkeeps.mono fun b ↦ Layout.fresh_of_mark (b := c) (p := .active) nofun
    refine ⟨fun b hb ↦ ?_, fun hl hseen ↦ ?_⟩
    · rw [hnext, link_set_of_seen hc hb]
      exact hkeeps'.next b hb
    · rw [hloops]
      exact hkeeps'.place hl hseen

/-! ## A loop

The turns of a loop, in this order: the header is entered and the loop is opened; the edges out of
the header are followed; the loop is closed, which cuts the list behind its body; the parked edges
are followed, with the header still on the stack; and the body goes in front, where the link of its
last block is changed. That block is found by walking through the body up to where the list was cut.
-/

section Header

variable {s inside outside : Layout} {rest n : List BlockIndex} {m m' : Numberer} {c : BlockIndex}
  {l : Nat} {loop : Loop}

private theorem Keeps.record (h : Keeps loops s m m') (hl : loops[l]? = some loop)
    (hseen : ¬s.Fresh loop.header) {r : LoopRecord} (hr : m.loops[l]? = some r) :
    ∃ r', m'.loops[l]? = some r' ∧ r'.around? = r.around? ∧ r'.first? = r.first? ∧
      r'.behind? = r.behind? := by
  have hplace := h.place hl hseen
  rw [hr, Option.map_some] at hplace
  obtain ⟨r', hr', heq⟩ := Option.map_eq_some_iff.mp hplace
  simp only [LoopRecord.place, Prod.mk.injEq] at heq
  exact ⟨r', hr', heq⟩

private theorem Threads.opened_header (h : Threads g loops s rest m) (hg : g.Sound)
    (hnd : (loops.map Loop.header).Nodup) (hmem : loop.header ∈ g.discovery.order)
    (hc : s.Fresh loop.header) (hl : loops[l]? = some loop) :
    ∃ m', (m.entered g loop.header).opened loop.header = pure m' ∧
      m'.stack = (m.entered g loop.header).stack ∧
      Threads g loops (s.enter loop.header l) (s.order ++ rest) m' ∧ Keeps loops s m m' ∧
      ∃ r, m'.loops[l]? = some r ∧ r.around? = s.openLoops.head? ∧
        r.behind? = (s.order ++ rest).head? := by
  have hentered := h.entered hg hmem
  have hnum := loopOf_header hg hnd hentered hl hmem
  obtain ⟨r, hr, hrloop, hrout⟩ := h.record hl
  have hlt := (Array.getElem?_eq_some_iff.mp hr).1
  let r' := { r with behind? := m.order?, around? := m.open? }
  have hmove := hentered.move hr r' rfl rfl
  refine ⟨{ m.entered g loop.header with
    loops := m.loops.setIfInBounds l r', open? := some l }, ?_, rfl, ?_, ?_, r', ?_, ?_, ?_⟩
  · have hread : Attempt.read (m.entered g loop.header).loops l = pure r :=
      Attempt.read_of_some hr
    have hwrite : Attempt.write (m.entered g loop.header).loops l r'
        = pure (m.loops.setIfInBounds l r') := Attempt.write_of_lt hlt r'
    simp only [Numberer.opened, Attempt.read_of_some hnum, pure_bind, hread]
    exact congrArg (· >>= _) hwrite
  · exact {
      next_size := h.next_size
      progress_size := hentered.progress_size
      marks := hentered.marks
      loopOf := h.loopOf
      record := hmove.record
      parked_size := h.parked_size
      targets := h.targets
      open_eq := rfl
      opened := List.forall_mem_cons.mpr
        ⟨⟨loop, hl, Layout.not_fresh_mark (p := .active) nofun hc.lt⟩, hentered.opened⟩
      links := h.links
      nodup := h.nodup
      placed := hentered.placed }
  · exact ⟨fun _ _ ↦ rfl, fun hk hseen ↦
      congrArg (Option.map _) (record_set_of_seen hl hc hk hseen m.loops r')⟩
  · exact Array.getElem?_setIfInBounds_self_of_lt hlt
  · exact h.open_eq
  · exact h.links.head_eq

/-- A loop is closed: the list is cut in front of what was laid out before, and the body stays in
the table. -/
private theorem Threads.close (h : Threads g loops s rest m) (hg : g.Sound)
    (hmem : loop.header ∈ g.discovery.order) (hc : s.Fresh loop.header)
    (hl : loops[l]? = some loop) (hext : Extends (s.enter loop.header l) inside n)
    (h' : Threads g loops inside (s.order ++ rest) m') {r : LoopRecord}
    (hr : m'.loops[l]? = some r) (haround : r.around? = s.openLoops.head?)
    (hbehind : r.behind? = (s.order ++ rest).head?) :
    ∃ m₁, m'.close loop.header l = pure m₁ ∧ m₁.stack = m'.stack ∧
      Threads g loops (s.leave inside loop.header) rest m₁ ∧ Keeps loops s m' m₁ ∧
      Links m₁.next (some loop.header) (loop.header :: inside.order ++ (s.order ++ rest)) ∧
      ∃ r', m₁.loops[l]? = some r' ∧ r'.first? = some loop.header ∧
        r'.behind? = (s.order ++ rest).head? := by
  have hlt := Graph.discovery_lt hg hmem
  have hnext : loop.header < m'.next.size := h'.next_size ▸ hlt
  have hrecords := (Array.getElem?_eq_some_iff.mp hr).1
  let r' := { r with first? := some loop.header }
  have hdone := (h'.mark hg hmem (p := .done) nofun).move hr r' rfl rfl
  have hnot : loop.header ∉ inside.order ++ (s.order ++ rest) := by
    have hbody : inside.order = n := hext.order_eq.trans (List.append_nil n)
    exact hbody ▸ h.not_mem_of_fresh hc hext.fresh
  have hpush := h'.links.push hnext hnot
  have hfresh : (s.enter loop.header l).openLoops.head? = some l := rfl
  have hfresh_mono : ∀ {b}, inside.Fresh b → s.Fresh b := fun hb ↦
    Layout.fresh_of_mark (b := loop.header) (p := .active) nofun (hext.fresh_of_fresh hb).1
  let m₁ : Numberer := { m' with
    next := m'.next.setIfInBounds loop.header m'.order?
    marks := m'.marks.setIfInBounds loop.header .visited2
    loops := m'.loops.setIfInBounds l r'
    order? := r.behind?
    open? := r.around? }
  refine ⟨m₁, ?_, rfl, ?_, ?_, hpush, r', Array.getElem?_setIfInBounds_self_of_lt hrecords, rfl,
    hbehind⟩
  · rw [Numberer.close, h'.open_eq, hext.open_eq, if_neg (not_not.mpr hfresh)]
    simp only [Attempt.read_of_some hr, Attempt.write_of_lt hnext, pure_bind,
      Attempt.write_of_lt (h'.lt_marks hg hmem), Attempt.write_of_lt hrecords]
    rfl
  · exact {
      next_size := (Array.size_setIfInBounds ..).trans h'.next_size
      progress_size := hdone.progress_size
      marks := hdone.marks
      loopOf := h'.loopOf
      record := hdone.record
      parked_size := h'.parked_size
      targets := h'.targets
      open_eq := haround
      opened := fun k hk ↦ by
        obtain ⟨loop', hloop', hseen⟩ := h.opened k hk
        exact ⟨loop', hloop', fun hf ↦ hseen (hfresh_mono
          (Layout.fresh_of_mark (b := loop.header) (p := .done) nofun hf))⟩
      links := by
        rw [show m₁.order? = (s.order ++ rest).head? from hbehind]
        exact Links.drop (l := loop.header :: inside.order) hpush
      nodup := h.nodup
      placed := fun b hb ↦ hdone.placed b (List.mem_append_right _ hb) }
  · exact ⟨fun b hb ↦ link_set_of_seen hc hb _ _, fun hk hseen ↦
      congrArg (Option.map _) (record_set_of_seen hl hc hk hseen m'.loops r')⟩

private theorem exists_last (hc : s.Fresh loop.header)
    (hinside : Extends (s.enter loop.header l) inside n) :
    ∃ front last, loop.header :: inside.order = front ++ [last] ∧ s.Fresh last := by
  have hbody : inside.order = n := hinside.order_eq.trans (List.append_nil n)
  obtain ⟨front, last, hlast⟩ : ∃ front last, loop.header :: inside.order = front ++ [last] :=
    ⟨_, _, (List.dropLast_append_getLast (List.cons_ne_nil _ _)).symm⟩
  refine ⟨front, last, hlast, ?_⟩
  have hmem : last ∈ loop.header :: inside.order := by
    rw [hlast]
    exact List.mem_append_right _ List.mem_cons_self
  rcases List.mem_cons.mp hmem with rfl | hmem
  · exact hc
  · exact Layout.fresh_of_mark (b := loop.header) (p := .active) nofun
      (hinside.fresh last (hbody ▸ hmem))

/-- What is laid out for a loop stands in the order once. -/
theorem Threads.nodup_join {n' : List BlockIndex} (h : Threads g loops s rest m)
    (hc : s.Fresh loop.header) (hinside : Extends (s.enter loop.header l) inside n)
    (houtside : Extends (s.leave inside loop.header) outside n') :
    (loop.header :: inside.order ++ (outside.order ++ rest)).Nodup := by
  have hjoin := Extends.join hc hinside houtside
  have horder : loop.header :: inside.order ++ outside.order = _ := hjoin.order_eq
  rw [← List.append_assoc, horder, List.append_assoc]
  exact List.nodup_append'.mpr ⟨hjoin.nodup, h.nodup, fun b hb hrest ↦
    (h.placed b hrest).2 (hjoin.fresh b hb)⟩

/-- The seam is the last block of the body: looking for it from the header finds it, and once its
link is changed the links go through the body and then through what the parked edges led to. -/
private theorem Threads.exists_seam {n' : List BlockIndex} (h : Threads g loops s rest m)
    (hc : s.Fresh loop.header) (hinside : Extends (s.enter loop.header l) inside n)
    (houtside : Extends (s.leave inside loop.header) outside n')
    (h' : Threads g loops outside rest m')
    (hlinks : Links m'.next (some loop.header)
      (loop.header :: inside.order ++ (s.order ++ rest))) :
    ∃ last, s.Fresh last ∧ last < m'.next.size ∧
      (∀ fuel, g.blockCount ≤ fuel →
        seek m'.next (s.order ++ rest).head? fuel (some loop.header) = pure last) ∧
      Links (m'.next.setIfInBounds last m'.order?) (some loop.header)
        (loop.header :: inside.order ++ (outside.order ++ rest)) := by
  have hnodup := h.nodup_join hc hinside houtside
  have hbefore : (loop.header :: inside.order ++ (s.order ++ rest)).Nodup := by
    refine hnodup.sublist ((List.Sublist.refl _).append ?_)
    rw [houtside.order_eq]
    exact (List.sublist_append_right _ _).append (.refl rest)
  obtain ⟨front, last, hlast, hfresh⟩ := exists_last hc hinside
  have hsplit : ∀ l, loop.header :: inside.order ++ l = front ++ last :: l := fun l ↦ by
    rw [hlast, List.append_assoc, List.singleton_append]
  rw [hsplit] at hlinks hbefore hnodup
  have hlen := hlinks.length_le hbefore
  rw [h'.next_size, List.length_append, List.length_cons] at hlen
  have hnotin := List.nodup_cons.mp (List.nodup_middle.mp hnodup)
  rw [List.mem_append, not_or] at hnotin
  refine ⟨last, hfresh, hlinks.lt_size (by simp), fun fuel hfuel ↦
    seek_eq hlinks hbefore (by omega), ?_⟩
  rw [hsplit]
  exact hlinks.splice h'.links hnotin.1.1 hnotin.1.2

private theorem Threads.placed_join {n' : List BlockIndex} (hc : s.Fresh loop.header)
    (hmem : loop.header ∈ g.discovery.order) (hinside : Extends (s.enter loop.header l) inside n)
    (houtside : Extends (s.leave inside loop.header) outside n')
    (hplaced : ∀ b ∈ inside.order, b ∈ g.discovery.order) (h' : Threads g loops outside rest m')
    {b : BlockIndex} (hb : b ∈ loop.header :: inside.order ++ (outside.order ++ rest)) :
    b ∈ g.discovery.order ∧ ¬(join inside outside loop.header).Fresh b := by
  have hjoin := Extends.join hc hinside houtside
  have hbody : inside.order = n := hinside.order_eq.trans (List.append_nil n)
  rcases List.mem_append.mp hb with hb | hb
  · refine ⟨?_, Layout.not_fresh_of_seen
      (hjoin.seen_of_mem (List.mem_append_left n' (hbody ▸ hb)))⟩
    rcases List.mem_cons.mp hb with rfl | hb
    · exact hmem
    · exact hplaced b hb
  · exact h'.placed b hb

private theorem Threads.splice {n' : List BlockIndex} (h : Threads g loops s rest m)
    (hc : s.Fresh loop.header) (hmem : loop.header ∈ g.discovery.order) (hl : loops[l]? = some loop)
    (hinside : Extends (s.enter loop.header l) inside n)
    (houtside : Extends (s.leave inside loop.header) outside n')
    (hplaced : ∀ b ∈ inside.order, b ∈ g.discovery.order) (h' : Threads g loops outside rest m')
    (hlinks : Links m'.next (some loop.header) (loop.header :: inside.order ++ (s.order ++ rest)))
    {r : LoopRecord} (hr : m'.loops[l]? = some r) (hfirst : r.first? = some loop.header)
    (hbehind : r.behind? = (s.order ++ rest).head?) (below : List Frame) :
    ∃ m₁, (∀ fuel, g.blockCount ≤ fuel → m'.splice fuel l below = pure m₁) ∧ m₁.stack = below ∧
      Threads g loops (join inside outside loop.header) rest m₁ ∧ Keeps loops s m' m₁ := by
  obtain ⟨last, hfresh, hlt, hseek, hspliced⟩ := h.exists_seam hc hinside houtside h' hlinks
  have hrecords := (Array.getElem?_eq_some_iff.mp hr).1
  let r' := { r with behind? := m'.order? }
  have hmove := h'.move hr r' rfl rfl
  let m₁ : Numberer := { m' with
    next := m'.next.setIfInBounds last m'.order?
    loops := m'.loops.setIfInBounds l r'
    order? := r.first?
    stack := below }
  refine ⟨m₁, fun fuel hfuel ↦ ?_, rfl, ?_, ?_⟩
  · rw [Numberer.splice, Attempt.read_of_some hr, pure_bind, hbehind, hfirst, hseek fuel hfuel,
      pure_bind, Attempt.write_of_lt hlt, pure_bind, Attempt.write_of_lt hrecords, pure_bind]
    rw [← hfirst]
  · exact {
      next_size := (Array.size_setIfInBounds ..).trans h'.next_size
      progress_size := h'.progress_size
      marks := h'.marks
      loopOf := h'.loopOf
      record := hmove.record
      parked_size := h'.parked_size
      targets := h'.targets
      open_eq := h'.open_eq
      opened := h'.opened
      links := by
        change Links _ r.first? (loop.header :: inside.order ++ outside.order ++ rest)
        rw [hfirst, List.append_assoc]
        exact hspliced
      nodup := by
        change (loop.header :: inside.order ++ outside.order ++ rest).Nodup
        rw [List.append_assoc]
        exact h.nodup_join hc hinside houtside
      placed := fun b hb ↦ by
        change b ∈ loop.header :: inside.order ++ outside.order ++ rest at hb
        rw [List.append_assoc] at hb
        exact Threads.placed_join hc hmem hinside houtside hplaced h' hb }
  · exact ⟨fun b hb ↦ link_set_of_seen hfresh hb _ _, fun hk hseen ↦
      congrArg (Option.map _) (record_set_of_seen hl hc hk hseen m'.loops r')⟩

private theorem layoutStep_of_header (hg : g.Sound) (hnd : (loops.map Loop.header).Nodup)
    (h : Threads g loops s rest m) {f : Frame} {below : List Frame} (hstack : m.stack = f :: below)
    (hl : loops[l]? = some loop) (hheader : f.block = loop.header)
    (hmem : loop.header ∈ g.discovery.order) (hdone : s.progress[loop.header]? = some .done)
    (hend : f.successors.length + (s.parkedAt l).length ≤ f.index) (fuel : Nat) :
    layoutStep g fuel m = m.splice fuel l below := by
  obtain ⟨r, hr, -, hout⟩ := h.record hl
  have hnum := loopOf_header hg hnd h hl hmem
  rw [← hheader] at hnum hmem hdone
  have htarget : m.target? f = pure none := by
    simp only [target?, List.getElem?_eq_none (Nat.le_of_add_right_le hend),
      Attempt.read_of_some hnum, Attempt.read_of_some hr, pure_bind, hout]
    rw [List.getElem?_eq_none (Nat.le_sub_of_add_le' hend)]
  simp only [layoutStep, hstack, settle_of_done hg h hmem hdone, htarget, pure_bind, retire,
    Attempt.read_of_some hnum]

private theorem layoutStep_of_close (hg : g.Sound) (hnd : (loops.map Loop.header).Nodup)
    {rest' : List BlockIndex} (h : Threads g loops s rest m) {f : Frame} {below : List Frame}
    (hstack : m.stack = f :: below) (hl : loops[l]? = some loop) (hheader : f.block = loop.header)
    (hmem : loop.header ∈ g.discovery.order) (hactive : s.progress[loop.header]? = some .active)
    (hend : f.successors.length ≤ f.index) (hclose : m.close loop.header l = pure m')
    (hstack' : m'.stack = m.stack) (h' : Threads g loops inside rest' m')
    (hdone : inside.progress[loop.header]? = some .done) (fuel : Nat) :
    layoutStep g fuel m = layoutStep g fuel m' := by
  have hnum := loopOf_header hg hnd h hl hmem
  have hmark := h.marks _ hmem
  rw [hactive, Option.map_some] at hmark
  rw [← hheader] at hnum hmark hmem hdone hclose
  have hsettle : m.settle f = pure m' := by
    simp only [settle, if_neg (Nat.not_lt.mpr hend), Attempt.read_of_some hnum,
      Attempt.read_of_some hmark, pure_bind]
    exact (if_pos rfl).trans hclose
  simp only [layoutStep, hstack'.trans hstack, hstack, hsettle, settle_of_done hg h' hmem hdone,
    pure_bind]

private theorem header_progress (hc : s.Fresh loop.header)
    (hinside : Extends (s.enter loop.header l) inside n) :
    inside.progress[loop.header]? = some .active ∧
      (s.leave inside loop.header).progress[loop.header]? = some .done := by
  have hlt : loop.header < inside.progress.size := by
    rw [hinside.size_eq]
    exact (Layout.size_mark s loop.header .active).symm ▸ hc.lt
  have hnot : loop.header ∉ n := fun hmem ↦
    Layout.not_fresh_mark (p := .active) nofun hc.lt (hinside.fresh _ hmem)
  refine ⟨?_, (Layout.progress_mark hlt .done loop.header).trans (if_pos rfl)⟩
  rw [hinside.progress, if_neg hnot]
  exact (Layout.progress_mark hc.lt .active loop.header).trans (if_pos rfl)

private theorem Threads.not_mem_openLoops (h : Threads g loops s rest m)
    (hl : loops[l]? = some loop) (hc : s.Fresh loop.header) : l ∉ s.openLoops := fun hmem ↦ by
  obtain ⟨loop', hl', hseen⟩ := h.opened l hmem
  rw [hl] at hl'
  cases hl'
  exact hseen hc

private theorem Threads.links_of_keeps {m₁ m₂ : Numberer}
    (h : Threads g loops inside (s.order ++ rest) m)
    (hseen : ¬(s.leave inside loop.header).Fresh loop.header)
    (hkeeps : Keeps loops (s.leave inside loop.header) m₁ m₂)
    (hlinks : Links m₁.next (some loop.header)
      (loop.header :: inside.order ++ (s.order ++ rest))) :
    Links m₂.next (some loop.header) (loop.header :: inside.order ++ (s.order ++ rest)) := by
  refine hlinks.congr fun b hb ↦ hkeeps.next b ?_
  rcases List.mem_cons.mp hb with rfl | hb
  · exact hseen
  · exact fun hf ↦ (h.placed b hb).2 (Layout.fresh_of_leave hf)

/-- A loop is visited: the edges out of its header are followed while it is open, then the parked
ones, and then its body is put in front. -/
private theorem goes_loop (hg : g.Sound) (hnd : (loops.map Loop.header).Nodup)
    {n' : List BlockIndex} (h : Threads g loops s rest m) (hmem : loop.header ∈ g.discovery.order)
    (hc : s.Fresh loop.header) (hl : loops[l]? = some loop)
    (hinside : Laid g loops (g.successors loop.header) (s.enter loop.header l) inside n)
    (houtside : Laid g loops (inside.parkedAt l) (s.leave inside loop.header) outside n')
    (hfollows : Follows g loops (g.successors loop.header) (s.enter loop.header l) inside)
    (hfollows' : (∀ c ∈ inside.parkedAt l, c ∈ g.discovery.order) →
      Follows g loops (inside.parkedAt l) (s.leave inside loop.header) outside) :
    ∃ m₁ m', (m.entered g loop.header).opened loop.header = pure m₁ ∧ LayoutGoes g m₁ m' ∧
      m'.stack = m.stack ∧ Threads g loops (join inside outside loop.header) rest m' ∧
      Keeps loops s m m' := by
  have hin := hinside.extends
  have hout := houtside.extends
  obtain ⟨hactive, hdone⟩ := header_progress hc hin
  have hopen_seen : ¬(s.enter loop.header l).Fresh loop.header :=
    Layout.not_fresh_mark (p := .active) nofun hc.lt
  have hdone_seen : ¬(s.leave inside loop.header).Fresh loop.header := fun hf ↦ by
    cases hdone.symm.trans hf
  have hdone' : outside.progress[loop.header]? = some .done := by
    rw [hout.progress, hdone, ite_self]
  have hclosed : l ∉ (s.leave inside loop.header).openLoops := h.not_mem_openLoops hl hc
  have hparked : outside.parkedAt l = inside.parkedAt l :=
    houtside.parkedAt_eq hl hdone_seen hclosed
  have hfresh : ∀ b, inside.Fresh b → s.Fresh b := fun b hb ↦
    Layout.fresh_of_mark (b := loop.header) (p := .active) nofun (hin.fresh_of_fresh hb).1
  -- the loop is opened, and the edges out of its header are followed
  obtain ⟨m₁, hopened, hstack₁, h₁, hkeeps₁, r₁, hr₁, haround₁, hbehind₁⟩ :=
    h.opened_header hg hnd hmem hc hl
  obtain ⟨m₂, hgoes₂, hstack₂, h₂, hkeeps₂⟩ :=
    hfollows _ m₁ _ m.stack h₁ hstack₁ (.own List.drop_zero)
  obtain ⟨r₂, hr₂, haround₂, -, hbehind₂⟩ := hkeeps₂.record hl hopen_seen hr₁
  -- it is closed, and the parked edges are followed
  obtain ⟨m₃, hclose, hstack₃, h₃, hkeeps₃, hlinks₃, r₃, hr₃, hfirst₃, hbehind₃⟩ :=
    h.close hg hmem hc hl hin h₂ hr₂ (haround₂.trans haround₁) (hbehind₂.trans hbehind₁)
  obtain ⟨m₄, hgoes₄, hstack₄, h₄, hkeeps₄⟩ :=
    hfollows' (h₂.targets l) rest m₃ _ m.stack h₃ (hstack₃.trans hstack₂)
      (.parked hl rfl hmem hclosed hdone (Nat.le_add_left _ _) (by
        rw [Nat.zero_add, Nat.sub_self]
        exact List.drop_zero))
  obtain ⟨r₄, hr₄, -, hfirst₄, hbehind₄⟩ := hkeeps₄.record hl hdone_seen hr₃
  have hlinks₄ := h₂.links_of_keeps hdone_seen hkeeps₄ hlinks₃
  -- the body is put in front of what they lead to
  obtain ⟨m₅, hsplice, hstack₅, h₅, hkeeps₅⟩ := h.splice hc hmem hl hin hout
    (fun b hb ↦ (h₂.placed b (List.mem_append_left _ hb)).1) h₄ hlinks₄ hr₄
    (hfirst₄.trans hfirst₃) (hbehind₄.trans hbehind₃) m.stack
  have hgoes₅ : LayoutGoes g m₃ m₅ := hgoes₄.tail ⟨by simp [hstack₄], fun fuel hfuel ↦ by
    rw [layoutStep_of_header hg hnd h₄ hstack₄ hl rfl hmem hdone' ?_ fuel, hsplice fuel hfuel]
    rw [hparked, Nat.zero_add]⟩
  have hgoes : LayoutGoes g m₂ m₅ := by
    refine hgoes₅.of_turn_eq (fun heq ↦ ?_) (by simp [hstack₂]) fun fuel ↦
      layoutStep_of_close hg hnd h₂ hstack₂ hl rfl hmem hactive (Nat.le_add_left _ _) hclose
        hstack₃ h₃ hdone fuel
    have hstack := congrArg Numberer.stack heq
    rw [hstack₃, hstack₂, hstack₅] at hstack
    exact List.cons_ne_self _ _ hstack
  refine ⟨m₁, m₅, hopened, hgoes₂.trans hgoes, hstack₅, h₅, ?_⟩
  exact hkeeps₁.trans <| (hkeeps₂.mono fun b ↦
    Layout.fresh_of_mark (b := loop.header) (p := .active) nofun).trans <| hkeeps₃.trans <|
      (hkeeps₄.mono fun b hb ↦ hfresh b (Layout.fresh_of_leave hb)).trans hkeeps₅

end Header

/-! ## The whole layout

By induction on the derivation of the layout. -/

/-- Along every derivation of a layout the numberer follows the same edges. -/
theorem follows_laid (hg : g.Sound) (hnd : (loops.map Loop.header).Nodup) {cs n : List BlockIndex}
    {s s' : Layout} (h : Laid g loops cs s s' n) :
    (∀ c ∈ cs, c ∈ g.discovery.order) → Follows g loops cs s s' := by
  have hsucc : ∀ {c}, c ∈ g.discovery.order → ∀ d ∈ g.successors c, d ∈ g.discovery.order :=
    fun hc _ hd ↦ Graph.mem_discovery_of_arc hg hc hd
  -- by induction on the derivation: each edge goes as it says, and a visit by the one for its block
  induction h with
  | nil s => exact fun _ ↦ follows_nil s
  | @skip c cs s s' n hc _ ih =>
    intro hcs
    rw [List.forall_mem_cons] at hcs
    exact follows_cons hg hnd (.skip hc (.nil s)) (crosses_skip hg hcs.1 hc) (ih hcs.2)
  | @park c cs s s' n l hc hl hout _ ih =>
    intro hcs
    rw [List.forall_mem_cons] at hcs
    exact follows_cons hg hnd (.park hc hl hout (.nil _)) (crosses_park hcs.1 hc hl hout)
      (ih hcs.2)
  | @block c cs s below s' n m hc hadm hplain hbelow _ ih₁ ih₂ =>
    intro hcs
    rw [List.forall_mem_cons] at hcs
    refine follows_cons hg hnd (.block hc hadm hplain hbelow (.nil _)) (fun rest m h ↦ ?_)
      (ih₂ hcs.2)
    obtain ⟨hopened, m', hgoes⟩ :=
      goes_block hg h hcs.1 hc hplain hbelow (ih₁ (hsucc hcs.1))
    exact ⟨_, m', (layoutEdge_of_admits h hcs.1 hc hadm).trans hopened, hgoes⟩
  | @loop c cs s inside outside s' n₁ n₂ m l loop hc hadm hl hheader hinside houtside _
      ih₁ ih₂ ih₃ =>
    intro hcs
    rw [List.forall_mem_cons] at hcs
    refine follows_cons hg hnd (.loop hc hadm hl hheader hinside houtside (.nil _))
      (fun rest m h ↦ ?_) (ih₃ hcs.2)
    subst hheader
    obtain ⟨m₁, m', hopened, hgoes⟩ :=
      goes_loop hg hnd h hcs.1 hc hl hinside houtside (ih₁ (hsucc hcs.1)) ih₂
    exact ⟨m₁, m', (layoutEdge_of_admits h hcs.1 hc hadm).trans hopened, hgoes⟩

end Numberer

end Flowgraph
