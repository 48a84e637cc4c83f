import Flowgraph.Proofs.Order.Gathering

/-!
# The nesting of loops

In a reducible graph two loops that meet are nested. Follow forward edges inside one of them, from
its header to a common block. Going back along these edges from the common block one stays inside
the other loop until one comes to its header, so that one of the two headers lies in both loops.

Hence the loops around a block form a chain, in which a smaller loop lies in every larger one. The
parent of a loop is looked up by the sizes of the loops around its header, and the depth of a block
is a count of the loops around it. Both are positions in that chain.
-/

namespace Flowgraph

/-- Loop `l` lies within loop `m` and leaves out one of its members. -/
def Loop.Within (l m : Loop) : Prop :=
  (∀ x ∈ l.members.toList, x ∈ m.members.toList) ∧ ∃ x ∈ m.members.toList, x ∉ l.members.toList

namespace Loop

variable {l m : Loop}

theorem Within.header_mem (h : l.Within m) (hl : l.header ∈ l.members.toList) :
    l.header ∈ m.members.toList := h.1 _ hl

theorem Within.size_lt (h : l.Within m) (hl : l.members.Tidy) :
    l.members.size < m.members.size := by
  obtain ⟨hsub, x, hx, hnot⟩ := h
  have hle := ((List.nodup_cons.mpr ⟨hnot, hl.nodup⟩).subperm
    (List.cons_subset.mpr ⟨hx, hsub⟩)).length_le
  exact Nat.lt_of_succ_le (by simpa [IndexSet.size, IndexSet.toList] using hle)

end Loop

/-! ## Laminarity

Two loops that have a block in common are nested, and which of them lies inside is decided by the
headers. -/

namespace Graph

variable {g : Graph} {l m k : Loop}

theorem mem_members_iff (hg : g.Sound) (hl : l ∈ g.loops) {x : BlockIndex} :
    x ∈ l.members.toList ↔ g.InLoop l.header x := by
  obtain ⟨-, htidy, hmembers⟩ := loops_spec hg hl
  rw [htidy.mem_iff, hmembers]

theorem header_mem_members (hg : g.Sound) (hl : l ∈ g.loops) : l.header ∈ l.members.toList :=
  (mem_members_iff hg hl).mpr (inLoop_header _)

private theorem loop_eq_of_header (hg : g.Sound) (hl : l ∈ g.loops) (hm : m ∈ g.loops)
    (h : l.header = m.header) : l = m :=
  List.inj_on_of_nodup_map (nodup_header_loops hg) hl hm h

end Graph

namespace Layout.Regular

open Flowgraph.Graph

variable {g : Graph} {l m k : Loop} {h h' x : BlockIndex} (hr : Layout.Regular g)

include hr

private theorem header_eq_of_inLoop (hh : h ∈ g.headers) (hh' : h' ∈ g.headers)
    (hin : g.InLoop h h') (hin' : g.InLoop h' h) : h = h' := by
  have hmem : ∀ {c}, c ∈ g.headers → c ∈ g.discovery.order := fun hc ↦
    hr.reached _ (header_lt hr.sound hc)
  have hle := (hr.reducible.dominates hin).eq_or_rank_lt hr.sound (hmem hh) (hmem hh')
  have hge := (hr.reducible.dominates hin').eq_or_rank_lt hr.sound (hmem hh') (hmem hh)
  rcases hle with heq | hlt
  · exact heq
  · rcases hge with heq | hgt
    · exact heq.symm
    · exact absurd hlt (Nat.lt_asymm hgt)

/-- Of two loops that meet one contains the header of the other. -/
private theorem inLoop_of_meet (hx : x < g.blockCount) (hin : g.InLoop h x) (hin' : g.InLoop h' x) :
    g.InLoop h h' ∨ g.InLoop h' h := by
  have hpath := hr.reducible.path_inside hr.sound (hr.reached x hx) hin'
  clear hx hin'
  -- back along the forward edges from the common block to the second header
  induction hpath with
  | refl => exact .inl hin
  | @tail y z _ harc ih =>
    by_cases hz : z = h
    · exact .inr (hz ▸ harc.2)
    · exact ih (hin.of_arc hz harc.1.1)

/-- A loop that contains the header of another one contains it strictly. -/
theorem within_of_header_mem (hl : l ∈ g.loops) (hm : m ∈ g.loops) (hne : l ≠ m)
    (hin : l.header ∈ m.members.toList) : l.Within m := by
  have hhl := (loops_spec hr.sound hl).1
  have hhm := (loops_spec hr.sound hm).1
  rw [mem_members_iff hr.sound hm] at hin
  refine ⟨fun x hx ↦ ?_, m.header, header_mem_members hr.sound hm, fun hback ↦ hne ?_⟩
  · rw [mem_members_iff hr.sound hl] at hx
    exact (mem_members_iff hr.sound hm).mpr
      (hr.reducible.nested hr.sound hr.reached hhm hhl hin hx)
  · rw [mem_members_iff hr.sound hl] at hback
    exact loop_eq_of_header hr.sound hl hm (hr.header_eq_of_inLoop hhl hhm hback hin)

/-- Two loops with a common block are nested. -/
theorem within_of_mem (hl : l ∈ g.loops) (hm : m ∈ g.loops) (hne : l ≠ m)
    (hxl : x ∈ l.members.toList) (hxm : x ∈ m.members.toList) : l.Within m ∨ m.Within l := by
  rw [mem_members_iff hr.sound hl] at hxl
  rw [mem_members_iff hr.sound hm] at hxm
  have hlt := hxl.lt hr.sound (header_lt hr.sound (loops_spec hr.sound hl).1)
  rcases hr.inLoop_of_meet hlt hxl hxm with hin | hin
  · exact .inr (hr.within_of_header_mem hm hl hne.symm ((mem_members_iff hr.sound hl).mpr hin))
  · exact .inl (hr.within_of_header_mem hl hm hne ((mem_members_iff hr.sound hm).mpr hin))

private theorem disjoint_or_within (hl : l ∈ g.loops) (hm : m ∈ g.loops) (hne : l ≠ m) :
    l.members.toList.Disjoint m.members.toList ∨ l.Within m ∨ m.Within l := by
  by_cases hmeet : ∃ x, x ∈ l.members.toList ∧ x ∈ m.members.toList
  · obtain ⟨x, hxl, hxm⟩ := hmeet
    exact .inr (hr.within_of_mem hl hm hne hxl hxm)
  · exact .inl fun x hxl hxm ↦ hmeet ⟨x, hxl, hxm⟩

end Layout.Regular

/-! ## Parents

The parent is looked up among the loops that hold the header, as the one with the fewest members. In
a chain of loops this is the next larger one. -/

/-- The other loops that contain the header of loop `i`, with their numbers. -/
def loopsAround (loops : List Loop) (i : Nat) : List (Loop × Nat) :=
  loops.zipIdx.filter fun (m, j) ↦
    j ≠ i && ((loops[i]?.map Loop.header).map m.members.contains).getD false

/-- The smaller one of the best loop so far, with its size, and another loop. -/
def smallerLoop (best : Option (Nat × Nat)) (m : Loop × Nat) : Option (Nat × Nat) :=
  match best with
  | some (size, j) =>
    if m.1.members.size < size then some (m.1.members.size, m.2) else some (size, j)
  | none => some (m.1.members.size, m.2)

theorem loopParent?_eq (loops : List Loop) (i : Nat) :
    loopParent? loops i = ((loopsAround loops i).foldl smallerLoop none).map Prod.snd := rfl

/-- The search for the smallest loop keeps one that it was given, unless it finds a smaller one. -/
theorem foldl_smallerLoop : ∀ (ms : List (Loop × Nat)) (size j : Nat),
    ∃ size' j', ms.foldl smallerLoop (some (size, j)) = some (size', j') ∧ size' ≤ size ∧
      (∀ m ∈ ms, size' ≤ m.1.members.size) ∧
      ((size', j') = (size, j) ∨ ∃ m ∈ ms, (size', j') = (m.1.members.size, m.2)) := by
  intro ms
  induction ms with
  | nil => exact fun size j ↦ ⟨size, j, rfl, Nat.le_refl _, by simp, .inl rfl⟩
  | cons m ms ih =>
    intro size j
    rw [List.foldl_cons, smallerLoop]
    split
    · rename_i hlt
      obtain ⟨size', j', hfold, hle, hmin, hfrom⟩ := ih m.1.members.size m.2
      refine ⟨size', j', hfold, by omega, List.forall_mem_cons.mpr ⟨hle, hmin⟩, .inr ?_⟩
      rcases hfrom with heq | ⟨m', hm', heq⟩
      · exact ⟨m, List.mem_cons_self, heq⟩
      · exact ⟨m', List.mem_cons_of_mem m hm', heq⟩
    · rename_i hle
      obtain ⟨size', j', hfold, hle', hmin, hfrom⟩ := ih size j
      refine ⟨size', j', hfold, hle', List.forall_mem_cons.mpr ⟨by omega, hmin⟩, ?_⟩
      exact hfrom.imp_right fun ⟨m', hm', heq⟩ ↦ ⟨m', List.mem_cons_of_mem m hm', heq⟩

private theorem mem_loopsAround {loops : List Loop} {i j : Nat} {l m : Loop}
    (hl : loops[i]? = some l) (hm : m.members.Tidy) : (m, j) ∈ loopsAround loops i ↔
      loops[j]? = some m ∧ j ≠ i ∧ l.header ∈ m.members.toList := by
  rw [loopsAround, List.mem_filter, List.mem_zipIdx_iff_getElem?, hm.mem_iff]
  simp [hl]

private theorem loopParent?_eq_none {loops : List Loop} {i : Nat} :
    loopParent? loops i = none ↔ loopsAround loops i = [] := by
  rw [loopParent?_eq]
  cases hms : loopsAround loops i with
  | nil => simp
  | cons m ms =>
    obtain ⟨size, j, hfold, -⟩ := foldl_smallerLoop ms m.1.members.size m.2
    rw [List.foldl_cons, smallerLoop, hfold]
    simp

private theorem loopParent?_spec {loops : List Loop} {i p : Nat}
    (h : loopParent? loops i = some p) :
    ∃ m, (m, p) ∈ loopsAround loops i ∧
      ∀ k ∈ loopsAround loops i, m.members.size ≤ k.1.members.size := by
  rw [loopParent?_eq] at h
  cases hms : loopsAround loops i with
  | nil =>
    rw [hms] at h
    cases h
  | cons m ms =>
    obtain ⟨size, j, hfold, hle, hmin, hfrom⟩ := foldl_smallerLoop ms m.1.members.size m.2
    rw [hms, List.foldl_cons, smallerLoop, hfold] at h
    cases h
    obtain ⟨m', hm', heq⟩ : ∃ m' ∈ m :: ms, (size, j) = (m'.1.members.size, m'.2) := by
      rcases hfrom with heq | ⟨m', hm', heq⟩
      · exact ⟨m, List.mem_cons_self, heq⟩
      · exact ⟨m', List.mem_cons_of_mem m hm', heq⟩
    cases heq
    exact ⟨m'.1, hm', List.forall_mem_cons.mpr ⟨hle, hmin⟩⟩

/-! ## Depths

The loops around a block are those around the header of its innermost loop, so that a depth is one
more than that of the parent. Parents have smaller depths, and climbing comes to an end. -/

/-- A condition that holds of one more element than another one does. -/
theorem countP_eq_succ {α : Type} [DecidableEq α] {xs : List α} {a : α} {p q : α → Bool}
    (hnd : xs.Nodup) (ha : a ∈ xs) (hq : q a = false)
    (hiff : ∀ x ∈ xs, p x = true ↔ x = a ∨ q x = true) : xs.countP p = 1 + xs.countP q := by
  have hperm := List.perm_cons_erase ha
  have hpa : p a = true := (hiff a ha).mpr (.inl rfl)
  have hrest : (xs.erase a).countP p = (xs.erase a).countP q := by
    refine List.countP_congr fun x hx ↦ ?_
    have hne : x ≠ a := fun heq ↦ hnd.not_mem_erase (heq ▸ hx)
    rw [hiff x (List.mem_of_mem_erase hx)]
    simp [hne]
  rw [hperm.countP_eq, hperm.countP_eq, List.countP_cons_of_pos hpa,
    List.countP_cons_of_neg (by simp [hq]), hrest, Nat.add_comm]

namespace Layout.Regular

open Flowgraph.Graph

variable {g : Graph} {i p : Nat} {l m k : Loop} (hr : Layout.Regular g)

include hr

theorem mem_loopsAround_iff (hl : g.loops[i]? = some l) {j : Nat} (hm : m ∈ g.loops) :
    (m, j) ∈ loopsAround g.loops i ↔
      g.loops[j]? = some m ∧ j ≠ i ∧ l.header ∈ m.members.toList :=
  mem_loopsAround hl (loops_spec hr.sound hm).2.1

theorem parent?_eq_none (hl : g.loops[i]? = some l) : loopParent? g.loops i = none ↔
    ∀ j m, g.loops[j]? = some m → j ≠ i → l.header ∉ m.members.toList := by
  rw [loopParent?_eq_none, List.eq_nil_iff_forall_not_mem]
  constructor
  · intro hnone j m hm hne hin
    exact hnone (m, j) ((hr.mem_loopsAround_iff hl (List.mem_of_getElem? hm)).mpr ⟨hm, hne, hin⟩)
  · rintro hnone ⟨m, j⟩ hmem
    have hm : g.loops[j]? = some m :=
      List.mem_zipIdx_iff_getElem?.mp (List.mem_of_mem_filter hmem)
    obtain ⟨-, hne, hin⟩ := (hr.mem_loopsAround_iff hl (List.mem_of_getElem? hm)).mp hmem
    exact hnone j m hm hne hin

omit hr in
theorem loop_ne (hg : g.Sound) {j : Nat} (hl : g.loops[i]? = some l) (hm : g.loops[j]? = some m)
    (hne : j ≠ i) : l ≠ m := by
  rintro rfl
  obtain ⟨hi, -⟩ := List.getElem?_eq_some_iff.mp hl
  exact hne ((List.getElem?_inj hi (nodup_header_loops hg).of_map).mp (hl.trans hm.symm)).symm

/-- The parent contains the header, and every other loop that does contains the parent. -/
theorem parent?_spec (hl : g.loops[i]? = some l) (hp : loopParent? g.loops i = some p) :
    ∃ m, g.loops[p]? = some m ∧ p ≠ i ∧ l.header ∈ m.members.toList ∧
      ∀ j k, g.loops[j]? = some k → j ≠ i → j ≠ p → l.header ∈ k.members.toList →
        m.Within k := by
  obtain ⟨m, hmem, hmin⟩ := loopParent?_spec hp
  have hm : g.loops[p]? = some m :=
    List.mem_zipIdx_iff_getElem?.mp (List.mem_of_mem_filter hmem)
  obtain ⟨-, hne, hin⟩ := (hr.mem_loopsAround_iff hl (List.mem_of_getElem? hm)).mp hmem
  refine ⟨m, hm, hne, hin, fun j k hk hji hjp hink ↦ ?_⟩
  have hkm := List.mem_of_getElem? hk
  have hmk : m ≠ k := loop_ne hr.sound hm hk hjp
  refine (hr.within_of_mem (List.mem_of_getElem? hm) hkm hmk hin hink).resolve_right fun hback ↦ ?_
  -- a smaller loop would have been taken
  have hlt := hback.size_lt (loops_spec hr.sound hkm).2.1
  exact absurd (hmin (k, j) ((hr.mem_loopsAround_iff hl hkm).mpr ⟨hk, hji, hink⟩))
    (Nat.not_le.mpr hlt)

theorem depth_of_root (hl : g.loops[i]? = some l) (hp : loopParent? g.loops i = none) :
    loopDepth g.loops l.header = 1 := by
  have hnone := (hr.parent?_eq_none hl).mp hp
  have hlm := List.mem_of_getElem? hl
  have hcount : g.loops.countP (·.members.contains l.header)
      = 1 + g.loops.countP fun _ ↦ false := by
    refine countP_eq_succ (nodup_header_loops hr.sound).of_map hlm rfl fun m hm ↦ ?_
    rw [← (loops_spec hr.sound hm).2.1.mem_iff]
    constructor
    · intro hin
      obtain ⟨j, hj⟩ := List.mem_iff_getElem?.mp hm
      by_cases hji : j = i
      · exact .inl (Option.some.inj (hj.symm.trans (hji ▸ hl)))
      · exact absurd hin (hnone j m hj hji)
    · rintro (rfl | hfalse)
      · exact header_mem_members hr.sound hm
      · cases hfalse
  rw [loopDepth, hcount, List.countP_false]
  rfl

/-- One step up in the nest leaves one loop behind. -/
theorem depth_of_parent (hl : g.loops[i]? = some l) (hm : g.loops[p]? = some m)
    (hp : loopParent? g.loops i = some p) :
    loopDepth g.loops l.header = 1 + loopDepth g.loops m.header := by
  obtain ⟨m', hm', hpi, hin, hmin⟩ := hr.parent?_spec hl hp
  cases Option.some.inj (hm.symm.trans hm')
  have hlm := List.mem_of_getElem? hl
  have hmm := List.mem_of_getElem? hm
  have hlm_ne : l ≠ m := loop_ne hr.sound hl hm hpi
  have hwithin := hr.within_of_header_mem hlm hmm hlm_ne hin
  have hout : m.header ∉ l.members.toList := fun hback ↦ by
    have hlt := (hr.within_of_header_mem hmm hlm hlm_ne.symm hback).size_lt
      (loops_spec hr.sound hmm).2.1
    exact Nat.lt_asymm hlt (hwithin.size_lt (loops_spec hr.sound hlm).2.1)
  rw [(loops_spec hr.sound hlm).2.1.mem_iff, Bool.not_eq_true] at hout
  -- the loops around the header are those around the header of the parent, and the loop itself
  refine countP_eq_succ (nodup_header_loops hr.sound).of_map hlm hout fun k hk ↦ ?_
  rw [← (loops_spec hr.sound hk).2.1.mem_iff, ← (loops_spec hr.sound hk).2.1.mem_iff]
  constructor
  · intro hink
    obtain ⟨j, hj⟩ := List.mem_iff_getElem?.mp hk
    by_cases hji : j = i
    · exact .inl (Option.some.inj (hj.symm.trans (hji ▸ hl)))
    · refine .inr ?_
      by_cases hjp : j = p
      · cases Option.some.inj (hj.symm.trans (hjp ▸ hm))
        exact header_mem_members hr.sound hmm
      · exact (hmin j k hj hji hjp hink).header_mem (header_mem_members hr.sound hmm)
  · rintro (rfl | hink)
    · exact header_mem_members hr.sound hk
    · by_cases hmk : m = k
      · exact hmk ▸ hin
      · exact (hr.within_of_header_mem hmm hk hmk hink).1 _ hin

private theorem parent?_smallest (hl : g.loops[i]? = some l) (hp : loopParent? g.loops i = some p) :
    ∃ m, g.loops[p]? = some m ∧ l.Within m ∧
      ∀ j k, g.loops[j]? = some k → l.Within k → j ≠ p → m.members.size < k.members.size := by
  obtain ⟨m, hm, hpi, hin, hmin⟩ := hr.parent?_spec hl hp
  have hlm := List.mem_of_getElem? hl
  have hmm := List.mem_of_getElem? hm
  refine ⟨m, hm, hr.within_of_header_mem hlm hmm (loop_ne hr.sound hl hm hpi) hin,
    fun j k hk hwithin hjp ↦ ?_⟩
  have hji : j ≠ i := by
    rintro rfl
    cases Option.some.inj (hl.symm.trans hk)
    exact Nat.lt_irrefl _ (hwithin.size_lt (loops_spec hr.sound hlm).2.1)
  exact (hmin j k hk hji hjp (hwithin.header_mem (header_mem_members hr.sound hlm))).size_lt
    (loops_spec hr.sound hmm).2.1

/-- Each step from a loop to its parent takes one off the depth. -/
private theorem climb_ends : ∀ {depth i : Nat} {l : Loop}, g.loops[i]? = some l →
    loopDepth g.loops l.header = depth →
    (fun j? : Option Nat ↦ j?.bind (loopParent? g.loops))^[depth] (some i) = none := by
  intro depth
  induction depth with
  | zero =>
    intro i l hl hdepth
    have hlm := List.mem_of_getElem? hl
    have hin := (loops_spec hr.sound hlm).2.1.mem_iff.mp (header_mem_members hr.sound hlm)
    exact absurd hin (List.countP_eq_zero.mp hdepth l hlm)
  | succ depth ih =>
    intro i l hl hdepth
    rw [Function.iterate_succ_apply, Option.bind_some]
    cases hp : loopParent? g.loops i with
    | none =>
      have hroot := hr.depth_of_root hl hp
      cases depth with
      | zero => rfl
      | succ depth => omega
    | some p =>
      obtain ⟨m, hm, -⟩ := hr.parent?_spec hl hp
      have hstep := hr.depth_of_parent hl hm hp
      exact ih hm (by omega)

end Layout.Regular

namespace Graph

variable {g : Graph}

/-- The loops of a reducible graph whose blocks can all be reached and whose entry no edge enters
form a forest. Two of them are disjoint or nested. The parent of a loop is the smallest loop around
it, and there is none exactly if no other loop contains its header. The depth counts the loops from
there up. -/
theorem loops_nested (hbuilt : g.Built) (hreach : ∀ b < g.blockCount, g.Reachable b)
    (hentry : ∀ u, ¬g.Arc u 0) (hred : ∀ e ∈ g.backedges, g.Dominates e.header e.source) :
    ∃ num, g.numbering = .ok num ∧
      (∀ (i j : Nat) (l m : Loop), num.loops[i]? = some l → num.loops[j]? = some m → i ≠ j →
        l.members.toList.Disjoint m.members.toList ∨ l.Within m ∨ m.Within l) ∧
      ∀ (i : Nat) (l : Loop), num.loops[i]? = some l →
        (num.parent? i = none ↔
          ∀ (j : Nat) (m : Loop), num.loops[j]? = some m → j ≠ i → l.header ∉ m.members.toList) ∧
        (num.parent? i = none → num.depth l.header = 1) ∧
        (∀ p, num.parent? i = some p → ∃ m, num.loops[p]? = some m ∧ l.Within m ∧
          (∀ (j : Nat) (k : Loop), num.loops[j]? = some k → l.Within k → j ≠ p →
            m.members.size < k.members.size) ∧
          num.depth l.header = 1 + num.depth m.header) ∧
        ∃ n ≤ num.loops.length,
          (fun j? : Option Nat ↦ j?.bind num.parent?)^[n] (some i) = none := by
  have hg := hbuilt.sound
  have hr := regular_of_reachable hg hreach hred
  obtain ⟨num, hnum, hloops, -⟩ := exists_numbering hg hreach hentry
  obtain ⟨order, _⟩ := num
  cases hloops
  refine ⟨_, hnum, fun i j l m hl hm hne ↦ ?_, fun i l hl ↦ ⟨hr.parent?_eq_none hl,
    hr.depth_of_root hl, fun p hp ↦ ?_, loopDepth g.loops l.header, List.countP_le_length,
    hr.climb_ends hl rfl⟩⟩
  · exact hr.disjoint_or_within (List.mem_of_getElem? hl) (List.mem_of_getElem? hm)
      (Layout.Regular.loop_ne hg hl hm hne.symm)
  · obtain ⟨m, hm, hwithin, hmin⟩ := hr.parent?_smallest hl hp
    exact ⟨m, hm, hwithin, hmin, hr.depth_of_parent hl hm hp⟩

def nestedLoops : Graph :=
  ((Sketch.mk [[1], [2], [3], [2, 4], [1, 5], []] [1, 2]).graph .empty).toOption.getD
    (.empty .empty)

theorem loops_nested_nestedLoops :
    ∃ num, nestedLoops.numbering = .ok num ∧ num.loops.map Loop.header = [2, 1] ∧
      num.parent? 0 = some 1 ∧ num.parent? 1 = none ∧ num.depth 1 = 1 ∧ num.depth 2 = 2 := by
  have hbuilt : nestedLoops.Built :=
    Sketch.graph_built ⟨[[1], [2], [3], [2, 4], [1, 5], []], [1, 2]⟩ .empty rfl
  have hreach : ∀ b < nestedLoops.blockCount, nestedLoops.Reachable b := fun b hb ↦
    (mem_discovery_iff hbuilt.sound (by decide)).mp
      ((by decide : ∀ b < 6, b ∈ nestedLoops.discovery.order) b hb)
  have hentry : ∀ u, ¬nestedLoops.Arc u 0 := fun u hu ↦
    (by decide : ∀ u < 6, ¬nestedLoops.Arc u 0) u (hbuilt.sound.arc_lt hu).1 hu
  have hred : ∀ e ∈ nestedLoops.backedges, nestedLoops.Dominates e.header e.source := by
    rw [show nestedLoops.backedges = [⟨3, 2⟩, ⟨4, 1⟩] from rfl]
    simp only [List.forall_mem_cons, List.not_mem_nil, false_implies, implies_true, and_true]
    constructor
    · exact dominates_of_closed (S := [0, 1]) (by decide) (by decide) (by decide)
    · exact dominates_of_closed (S := [0]) (by decide) (by decide) (by decide)
  obtain ⟨num, hnum, -, hnest⟩ := loops_nested hbuilt hreach hentry hred
  have hloops : nestedLoops.numbering.toOption.map Numbering.loops = some nestedLoops.loops := by
    decide
  rw [hnum] at hloops
  obtain ⟨order, loops⟩ := num
  obtain rfl : loops = nestedLoops.loops := Option.some.inj hloops
  obtain ⟨inner, hinner, hheader⟩ : ∃ l, nestedLoops.loops[0]? = some l ∧ l.header = 2 :=
    ⟨_, rfl, rfl⟩
  obtain ⟨outer, houter, hheader'⟩ : ∃ l, nestedLoops.loops[1]? = some l ∧ l.header = 1 :=
    ⟨_, rfl, rfl⟩
  have hparent : loopParent? nestedLoops.loops 0 = some 1 := by decide
  have hroot : loopParent? nestedLoops.loops 1 = none := by decide
  have hdepth := (hnest 1 outer houter).2.1 hroot
  obtain ⟨m, hm, -, -, hdepth'⟩ := (hnest 0 inner hinner).2.2.1 1 hparent
  cases Option.some.inj (houter.symm.trans hm)
  rw [hdepth, hheader] at hdepth'
  rw [hheader'] at hdepth
  exact ⟨_, hnum, (by decide : nestedLoops.loops.map Loop.header = [2, 1]), hparent, hroot,
    hdepth, hdepth'⟩

end Graph

end Flowgraph
