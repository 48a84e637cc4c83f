import Flowgraph.Order.Numbering
import Flowgraph.Proofs.Order.Loops
import Mathlib.Data.Finset.Card
import Mathlib.Order.Interval.Finset.Nat

/-!
# What the layout does

The layout is a search with a bound on its depth. `Laid` describes the same search without the
bound, as a derivation: one rule for each way in which an edge can be followed, with the list of
the blocks that are laid out on the way. Everything that is said about a layout is said by
induction on such derivations.

## The two halves

The first half holds of every graph: what is laid out was fresh, is laid out once, and leaves no
fresh successor behind that is not parked at the innermost open loop. The second half is about
reducible graphs. There a search never enters a loop but through its header, so that the blocks
laid out while a loop is open are its members, and an edge that is not a backedge leads forward.
-/

namespace Flowgraph

namespace Layout

/-- A block that the search has come to. -/
def Seen (s : Layout) (b : BlockIndex) : Prop := ∃ p, s.progress[b]? = some p ∧ p ≠ .fresh

/-- A block that the search has not come to. -/
def Fresh (s : Layout) (b : BlockIndex) : Prop := s.progress[b]? = some .fresh

/-- The edges parked at a loop. -/
def parkedAt (s : Layout) (l : Nat) : List BlockIndex := s.parked[l]?.getD []

/-- Block `c` is a member of loop `l`. -/
def Inside (loops : List Loop) (l : Nat) (c : BlockIndex) : Prop :=
  ∃ loop, loops[l]? = some loop ∧ loop.members.contains c = true

/-- Block `c` is a member of the innermost open loop, if there is one. -/
def Admits (loops : List Loop) (s : Layout) (c : BlockIndex) : Prop :=
  ∀ l, s.openLoops.head? = some l → Inside loops l c

/-- The state once block `c` and what is below it are laid out. -/
def put (s : Layout) (c : BlockIndex) : Layout :=
  { s.mark c .done with order := c :: s.order }

/-- The state in which the body of loop `l` with header `c` is laid out. -/
def enter (s : Layout) (c : BlockIndex) (l : Nat) : Layout :=
  { s.mark c .active with order := [], openLoops := l :: s.openLoops }

/-- The state in which the parked edges of a loop are followed. -/
def leave (s inside : Layout) (c : BlockIndex) : Layout :=
  { inside.mark c .done with order := s.order, openLoops := s.openLoops }

/-- The state once a loop with header `c` and what its parked edges lead to are laid out. -/
def join (inside outside : Layout) (c : BlockIndex) : Layout :=
  { outside with order := c :: inside.order ++ outside.order }

/-- Following the edges to `cs` from state `s` ends in state `s'` and lays out the blocks of
`laid`. -/
inductive Laid (g : Graph) (loops : List Loop) :
    (cs : List BlockIndex) → (s s' : Layout) → (laid : List BlockIndex) → Prop where
  | nil (s : Layout) : Laid g loops [] s s []
  | skip {c cs s s' n} : ¬s.Fresh c → Laid g loops cs s s' n → Laid g loops (c :: cs) s s' n
  | park {c cs s s' n l} : s.Fresh c → s.openLoops.head? = some l → ¬Inside loops l c →
    Laid g loops cs (s.park l c) s' n → Laid g loops (c :: cs) s s' n
  | block {c cs s below s' n m} : s.Fresh c → Admits loops s c →
    (∀ loop ∈ loops, loop.header ≠ c) →
    Laid g loops (g.successors c) (s.mark c .active) below n →
    Laid g loops cs (below.put c) s' m →
    Laid g loops (c :: cs) s s' (m ++ c :: n)
  | loop {c cs s inside outside s' n₁ n₂ m l loop} : s.Fresh c → Admits loops s c →
    loops[l]? = some loop → loop.header = c →
    Laid g loops (g.successors c) (s.enter c l) inside n₁ →
    Laid g loops (inside.parkedAt l) (s.leave inside c) outside n₂ →
    Laid g loops cs (join inside outside c) s' m →
    Laid g loops (c :: cs) s s' (m ++ (c :: n₁ ++ n₂))

/-! ## Every layout

What a layout does to the progress of blocks: it lays out fresh blocks, each once, and leaves the
others as they are. This holds along every derivation, and the state behind a list of edges extends
the one in front of it. -/

section Every

variable {s s' : Layout}

theorem not_fresh_of_seen {b : BlockIndex} (h : s.Seen b) : ¬s.Fresh b := by
  obtain ⟨p, hp, hne⟩ := h
  rw [Fresh, hp, Option.some.injEq]
  exact hne

theorem seen_or_fresh {b : BlockIndex} (h : b < s.progress.size) : s.Seen b ∨ s.Fresh b := by
  by_cases hp : s.progress[b] = .fresh
  · exact Or.inr (by rw [Fresh, Array.getElem?_eq_getElem h, hp])
  · exact Or.inl ⟨_, Array.getElem?_eq_getElem h, hp⟩

theorem Fresh.lt {b : BlockIndex} (h : s.Fresh b) : b < s.progress.size :=
  (Array.getElem?_eq_some_iff.mp h).1

theorem progress_mark {b : BlockIndex} (h : b < s.progress.size) (p : Progress) (c : Nat) :
    (s.mark b p).progress[c]? = if c = b then some p else s.progress[c]? := by
  by_cases hc : c = b
  · subst hc
    rw [if_pos rfl, mark, Array.getElem?_setIfInBounds_self_of_lt h]
  · rw [if_neg hc, mark, Array.getElem?_setIfInBounds_ne (Ne.symm hc)]

theorem size_mark (s : Layout) (b : BlockIndex) (p : Progress) :
    (s.mark b p).progress.size = s.progress.size := by
  rw [mark, Array.size_setIfInBounds]

/-- Marking a block makes no block fresh. -/
theorem fresh_of_mark {b c : BlockIndex} {p : Progress} (hp : p ≠ .fresh)
    (h : (s.mark b p).Fresh c) : s.Fresh c := by
  have hlt : c < s.progress.size := (size_mark s b p) ▸ h.lt
  by_cases hb : b < s.progress.size
  · rw [Fresh, progress_mark hb] at h
    split at h
    · exact absurd (Option.some.inj h) hp
    · exact h
  · rwa [Fresh, mark, Array.setIfInBounds, dif_neg hb] at h

theorem not_fresh_mark {b : BlockIndex} {p : Progress} (hp : p ≠ .fresh)
    (hb : b < s.progress.size) : ¬(s.mark b p).Fresh b := by
  rw [Fresh, progress_mark hb, if_pos rfl, Option.some.injEq]
  exact hp

private theorem fresh_of_put {b c : BlockIndex} (h : (s.put c).Fresh b) : s.Fresh b :=
  fresh_of_mark (p := .done) nofun h

theorem fresh_of_leave {b c : BlockIndex} (h : (s.leave s' c).Fresh b) : s'.Fresh b :=
  fresh_of_mark (p := .done) nofun h

end Every

/-- What following edges does to a state: the blocks that are laid out were fresh, are done
afterwards and stand in front; nothing else about blocks and open loops changes. -/
structure Extends (s s' : Layout) (n : List BlockIndex) : Prop where
  order_eq : s'.order = n ++ s.order
  open_eq : s'.openLoops = s.openLoops
  size_eq : s'.progress.size = s.progress.size
  progress : ∀ b : Nat, s'.progress[b]? = if b ∈ n then some .done else s.progress[b]?
  fresh : ∀ b ∈ n, s.Fresh b
  nodup : n.Nodup
  parked_size : s'.parked.size = s.parked.size
  parked : ∀ l v, v ∈ s.parkedAt l → v ∈ s'.parkedAt l

namespace Extends

variable {s s' inside outside : Layout} {c : BlockIndex} {n m : List BlockIndex} {l : Nat}

theorem seen (h : Extends s s' n) {b : BlockIndex} (hb : s.Seen b) : s'.Seen b := by
  obtain ⟨p, hp, hne⟩ := hb
  rw [Seen, h.progress]
  split
  · exact ⟨.done, rfl, nofun⟩
  · exact ⟨p, hp, hne⟩

theorem seen_of_mem (h : Extends s s' n) {b : BlockIndex} (hb : b ∈ n) : s'.Seen b :=
  ⟨.done, by rw [h.progress, if_pos hb], nofun⟩

/-- A block that is seen afterwards was seen before or was laid out. -/
theorem seen_or_mem (h : Extends s s' n) {b : BlockIndex} (hb : s'.Seen b) : s.Seen b ∨ b ∈ n := by
  by_cases hmem : b ∈ n
  · exact Or.inr hmem
  · rw [Seen, h.progress, if_neg hmem] at hb
    exact Or.inl hb

theorem fresh_of_fresh (h : Extends s s' n) {b : BlockIndex} (hb : s'.Fresh b) :
    s.Fresh b ∧ b ∉ n := by
  rw [Fresh, h.progress] at hb
  split at hb
  · cases hb
  · exact ⟨hb, ‹_›⟩

private theorem refl (s : Layout) : Extends s s [] :=
  ⟨rfl, rfl, rfl, by simp, by simp, List.nodup_nil, rfl, fun _ _ h ↦ h⟩

private theorem trans {s₁ : Layout} (h : Extends s s₁ n) (h' : Extends s₁ s' m) :
    Extends s s' (m ++ n) where
  order_eq := by rw [h'.order_eq, h.order_eq, List.append_assoc]
  open_eq := h'.open_eq.trans h.open_eq
  size_eq := h'.size_eq.trans h.size_eq
  progress b := by
    rw [h'.progress, h.progress]
    by_cases hm : b ∈ m <;> by_cases hn : b ∈ n <;> simp [hm, hn]
  fresh b hb := by
    rcases List.mem_append.mp hb with hb | hb
    · exact (h.fresh_of_fresh (h'.fresh b hb)).1
    · exact h.fresh b hb
  nodup := by
    rw [List.nodup_append']
    exact ⟨h'.nodup, h.nodup, fun b hm hn ↦ (h.fresh_of_fresh (h'.fresh b hm)).2 hn⟩
  parked_size := h'.parked_size.trans h.parked_size
  parked l v hv := h'.parked l v (h.parked l v hv)

theorem park (s : Layout) (l : Nat) (c : BlockIndex) : Extends s (s.park l c) [] where
  order_eq := rfl
  open_eq := rfl
  size_eq := rfl
  progress b := by simp [Layout.park]
  fresh b hb := by cases hb
  nodup := List.nodup_nil
  parked_size := by rw [Layout.park, Array.size_modify]
  parked k v hv := by
    rw [parkedAt, Layout.park, Array.getElem?_modify]
    rw [parkedAt] at hv
    split
    · cases hk : s.parked[k]? with
      | none => simp [hk] at hv
      | some vs => simpa [hk] using Or.inl (by simpa [hk] using hv)
    · exact hv

theorem put (hc : s.Fresh c) (h : Extends (s.mark c .active) s' n) :
    Extends s (s'.put c) (c :: n) := by
  have hlt : c < s'.progress.size := by rw [h.size_eq, size_mark]; exact hc.lt
  have hcn : c ∉ n := fun hmem ↦ not_fresh_mark (p := .active) nofun hc.lt (h.fresh c hmem)
  exact {
    order_eq := by rw [Layout.put, h.order_eq]; rfl
    open_eq := h.open_eq
    size_eq := (size_mark _ _ _).trans (h.size_eq.trans (size_mark _ _ _))
    progress := fun b ↦ by
      rw [Layout.put, progress_mark hlt, h.progress, progress_mark hc.lt]
      by_cases hb : b = c <;> simp [hb]
    fresh := fun b hb ↦ by
      rcases List.mem_cons.mp hb with rfl | hb
      · exact hc
      · exact fresh_of_mark (p := .active) nofun (h.fresh b hb)
    nodup := List.nodup_cons.mpr ⟨hcn, h.nodup⟩
    parked_size := h.parked_size
    parked := h.parked }

theorem join (hc : s.Fresh c) (h : Extends (s.enter c l) inside n)
    (h' : Extends (s.leave inside c) outside m) :
    Extends s (join inside outside c) (c :: n ++ m) := by
  -- the body alone, as if the loop had been an ordinary block
  let body := { inside with order := n ++ s.order, openLoops := s.openLoops }
  have hin : Extends (s.mark c .active) body n :=
    ⟨rfl, rfl, h.size_eq, h.progress, h.fresh, h.nodup, h.parked_size, h.parked⟩
  have hput := hin.put hc
  have hdisj : ∀ b ∈ m, s.Fresh b ∧ b ∉ c :: n := fun b hb ↦ hput.fresh_of_fresh (h'.fresh b hb)
  exact {
    order_eq := by
      rw [Layout.join, h'.order_eq, h.order_eq]
      simp [Layout.enter, Layout.leave]
    open_eq := h'.open_eq
    size_eq := h'.size_eq.trans hput.size_eq
    progress := fun b ↦ by
      have h₁ := h'.progress b
      have h₂ := hput.progress b
      rw [Layout.join, h₁]
      change (if b ∈ m then _ else (inside.mark c .done).progress[b]?) = _
      change (inside.mark c .done).progress[b]? = _ at h₂
      rw [h₂]
      by_cases hm : b ∈ m <;> by_cases hn : b ∈ c :: n <;> simp_all
    fresh := fun b hb ↦ by
      rcases List.mem_append.mp hb with hb | hb
      · exact hput.fresh b hb
      · exact (hdisj b hb).1
    nodup := by
      rw [List.nodup_append']
      exact ⟨hput.nodup, h'.nodup, fun b hn hm ↦ (hdisj b hm).2 hn⟩
    parked_size := h'.parked_size.trans hput.parked_size
    parked := fun k v hv ↦ h'.parked k v (hput.parked k v hv) }

end Extends

theorem Laid.extends {g : Graph} {loops : List Loop} {cs : List BlockIndex} {s s' : Layout}
    {n : List BlockIndex} (h : Laid g loops cs s s' n) : Extends s s' n := by
  induction h with
  | nil s => exact .refl s
  | skip _ _ ih => exact ih
  | park _ _ _ _ ih =>
    have := (Extends.park _ _ _).trans ih
    rwa [List.append_nil] at this
  | block hc _ _ _ _ ih₁ ih₂ => exact (ih₁.put hc).trans ih₂
  | loop hc _ _ _ _ _ _ ih₁ ih₂ ih₃ => exact (Extends.join hc ih₁ ih₂).trans ih₃

/-! ## The bounded search

Each visit takes a fresh block, so that a depth of the number of fresh blocks is enough, and the
bounded search then follows a derivation. -/

/-- The number of fresh blocks, which bounds the depth of a search. -/
def freshCount (s : Layout) : Nat :=
  ((Finset.range s.progress.size).filter fun b ↦ s.progress[b]? = some .fresh).card

theorem freshCount_le {s s' : Layout} (hsize : s'.progress.size = s.progress.size)
    (h : ∀ b, s'.Fresh b → s.Fresh b) : s'.freshCount ≤ s.freshCount := by
  refine Finset.card_le_card fun b hb ↦ ?_
  rw [Finset.mem_filter] at hb ⊢
  exact ⟨hsize ▸ hb.1, h b hb.2⟩

private theorem freshCount_pos {s : Layout} {c : BlockIndex} (hc : s.Fresh c) : 0 < s.freshCount :=
  Finset.card_pos.mpr ⟨c, Finset.mem_filter.mpr ⟨Finset.mem_range.mpr hc.lt, hc⟩⟩

private theorem freshCount_mark_lt {s : Layout} {c : BlockIndex} (hc : s.Fresh c) :
    (s.mark c .active).freshCount < s.freshCount := by
  refine Finset.card_lt_card ((Finset.ssubset_iff_of_subset fun b hb ↦ ?_).mpr ⟨c, ?_, ?_⟩)
  · rw [Finset.mem_filter, size_mark] at hb
    exact Finset.mem_filter.mpr ⟨hb.1, fresh_of_mark (p := .active) nofun hb.2⟩
  · exact Finset.mem_filter.mpr ⟨Finset.mem_range.mpr hc.lt, hc⟩
  · rw [Finset.mem_filter]
    exact fun h ↦ not_fresh_mark (p := .active) nofun hc.lt h.2

section Bounded

variable {g : Graph} {loops : List Loop} {v : BlockIndex → Layout → Layout} {s : Layout}
  {c : BlockIndex}

private theorem follow_of_not_fresh (hc : ¬s.Fresh c) : follow loops v s c = s := by
  rw [follow]
  split
  · exact absurd ‹_› hc
  · exact absurd ‹_› hc
  · rfl

private theorem follow_of_fresh (loops : List Loop) (v : BlockIndex → Layout → Layout)
    (hc : s.Fresh c) : (Admits loops s c ∧ follow loops v s c = v c s) ∨
      ∃ l, s.openLoops.head? = some l ∧ ¬Inside loops l c ∧ follow loops v s c = s.park l c := by
  rw [Fresh] at hc
  cases ho : s.openLoops with
  | nil =>
    refine Or.inl ⟨fun l hl ↦ ?_, by rw [follow, hc, ho]⟩
    rw [ho] at hl
    cases hl
  | cons l rest =>
    have hinside : (loops[l]?.map (·.members.contains c)).getD false = true ↔
        Inside loops l c := by
      rw [Inside]
      cases loops[l]? <;> simp
    by_cases hin : Inside loops l c
    · refine Or.inl ⟨fun l' hl' ↦ ?_, ?_⟩
      · rw [ho] at hl'
        cases hl'
        exact hin
      · rw [follow, hc, ho]
        exact if_pos (hinside.mpr hin)
    · refine Or.inr ⟨l, rfl, hin, ?_⟩
      rw [follow, hc, ho]
      exact if_neg (mt hinside.mp hin)

theorem visit_block (depth : Nat) (h : ∀ loop ∈ loops, loop.header ≠ c) :
    visit g loops (depth + 1) c s
      = ((g.successors c).foldl (follow loops (visit g loops depth)) (s.mark c .active)).put c := by
  have hnone : loops.findIdx? (·.header = c) = none := by
    rw [List.findIdx?_eq_none_iff]
    exact fun loop hl ↦ decide_eq_false (h loop hl)
  rw [visit, hnone]
  rfl

theorem visit_loop (depth : Nat) {l : Nat} (h : loops.findIdx? (·.header = c) = some l) :
    visit g loops (depth + 1) c s =
      let next := follow loops (visit g loops depth)
      let inside := (g.successors c).foldl next (s.enter c l)
      join inside ((inside.parkedAt l).foldl next (s.leave inside c)) c := by
  rw [visit, h]
  rfl

private theorem visit_laid {depth : Nat} (hfollow : ∀ (cs : List BlockIndex) (s : Layout),
      s.freshCount ≤ depth →
        ∃ n, Laid g loops cs s (cs.foldl (follow loops (visit g loops depth)) s) n)
    (hc : s.Fresh c) (hs : s.freshCount ≤ depth + 1) (hadm : Admits loops s c) :
    ∃ n, Extends s (visit g loops (depth + 1) c s) n ∧ ∀ {cs s' m},
      Laid g loops cs (visit g loops (depth + 1) c s) s' m →
        Laid g loops (c :: cs) s s' (m ++ n) := by
  have hmark : (s.mark c .active).freshCount ≤ depth :=
    Nat.le_of_lt_succ (Nat.lt_of_lt_of_le (freshCount_mark_lt hc) hs)
  cases hl : loops.findIdx? (·.header = c) with
  | none =>
    have hplain : ∀ loop ∈ loops, loop.header ≠ c := fun loop hloop ↦
      of_decide_eq_false (List.findIdx?_eq_none_iff.mp hl loop hloop)
    rw [visit_block depth hplain]
    obtain ⟨n, hn⟩ := hfollow (g.successors c) (s.mark c .active) hmark
    exact ⟨_, hn.extends.put hc, .block hc hadm hplain hn⟩
  | some l =>
    obtain ⟨hlt, hheader, -⟩ := List.findIdx?_eq_some_iff_getElem.mp hl
    rw [visit_loop depth hl]
    dsimp only
    obtain ⟨n₁, hn₁⟩ := hfollow (g.successors c) (s.enter c l) hmark
    generalize (g.successors c).foldl (follow loops (visit g loops depth)) (s.enter c l)
      = inside at hn₁ ⊢
    -- what is left fresh behind the body was fresh in front of it
    have hle : (s.leave inside c).freshCount ≤ (s.enter c l).freshCount :=
      freshCount_le ((size_mark inside c .done).trans hn₁.extends.size_eq) fun b hb ↦
        (hn₁.extends.fresh_of_fresh (fresh_of_leave hb)).1
    obtain ⟨n₂, hn₂⟩ := hfollow (inside.parkedAt l) (s.leave inside c) (hle.trans hmark)
    exact ⟨_, .join hc hn₁.extends hn₂.extends, .loop hc hadm (List.getElem?_eq_getElem hlt)
      (of_decide_eq_true hheader) hn₁ hn₂⟩

end Bounded

/-- With depth for every fresh block, the bounded search is the search. -/
theorem foldl_follow_laid (g : Graph) (loops : List Loop) : ∀ (depth : Nat) (cs : List BlockIndex)
    (s : Layout), s.freshCount ≤ depth →
    ∃ n, Laid g loops cs s (cs.foldl (follow loops (visit g loops depth)) s) n := by
  intro depth
  induction depth with
  | zero =>
    intro cs
    induction cs with
    | nil => exact fun s _ ↦ ⟨[], .nil s⟩
    | cons c cs ih =>
      intro s hs
      have hc : ¬s.Fresh c := fun hc ↦ absurd (freshCount_pos hc) (Nat.not_lt.mpr hs)
      rw [List.foldl_cons, follow_of_not_fresh hc]
      obtain ⟨n, hn⟩ := ih s hs
      exact ⟨n, .skip hc hn⟩
  | succ depth ihd =>
    intro cs
    induction cs with
    | nil => exact fun s _ ↦ ⟨[], .nil s⟩
    | cons c cs ih =>
      intro s hs
      rw [List.foldl_cons]
      have hrest : ∀ {s₁ n}, Extends s s₁ n → s₁.freshCount ≤ depth + 1 := fun h ↦
        (freshCount_le h.size_eq fun b hb ↦ (h.fresh_of_fresh hb).1).trans hs
      by_cases hc : s.Fresh c
      · rcases follow_of_fresh loops (visit g loops (depth + 1)) hc with
          ⟨hadm, heq⟩ | ⟨l, hl, hout, heq⟩
        · rw [heq]
          obtain ⟨n, hext, hlaid⟩ := visit_laid ihd hc hs hadm
          obtain ⟨m, hm⟩ := ih _ (hrest hext)
          exact ⟨_, hlaid hm⟩
        · rw [heq]
          obtain ⟨n, hn⟩ := ih _ (hrest (Extends.park s l c))
          exact ⟨n, .park hc hl hout hn⟩
      · rw [follow_of_not_fresh hc]
        obtain ⟨n, hn⟩ := ih s hs
        exact ⟨n, .skip hc hn⟩

/-! ## Nothing is left behind

Every successor of a block that was laid out is seen, or parked at a loop that is still open. At the
end no loop is open, so that everything that can be reached was laid out. -/

/-- The tables fit the loops. -/
structure Fits (loops : List Loop) (s : Layout) : Prop where
  parked_size : s.parked.size = loops.length
  open_lt : ∀ l ∈ s.openLoops, l < loops.length

/-- An edge to `b` needs no more attention before the innermost open loop is left. -/
def Settled (s : Layout) (b : BlockIndex) : Prop :=
  ¬s.Fresh b ∨ ∃ l, s.openLoops.head? = some l ∧ b ∈ s.parkedAt l

theorem Extends.fits {loops : List Loop} {s s' : Layout} {n : List BlockIndex}
    (h : Extends s s' n) (hs : Fits loops s) : Fits loops s' :=
  ⟨h.parked_size.trans hs.parked_size, h.open_eq ▸ hs.open_lt⟩

private theorem Extends.settled {s s' : Layout} {n : List BlockIndex} (h : Extends s s' n)
    {b : BlockIndex} (hb : s.Settled b) : s'.Settled b := by
  rcases hb with hb | ⟨l, hl, hb⟩
  · exact Or.inl fun hf ↦ hb (h.fresh_of_fresh hf).1
  · exact Or.inr ⟨l, h.open_eq ▸ hl, h.parked l b hb⟩

private theorem mem_parkedAt_park {s : Layout} {l : Nat} (hl : l < s.parked.size) (c : BlockIndex) :
    c ∈ (s.park l c).parkedAt l := by
  rw [parkedAt, park, Array.getElem?_modify, if_pos rfl, Array.getElem?_eq_getElem hl]
  simp

/-- Every edge that was followed and every edge out of a block that was laid out is settled. -/
theorem Laid.settled {g : Graph} {loops : List Loop} {cs : List BlockIndex} {s s' : Layout}
    {n : List BlockIndex} (h : Laid g loops cs s s' n) (hs : Fits loops s) :
    (∀ c ∈ cs, s'.Settled c) ∧ ∀ u ∈ n, ∀ v ∈ g.successors u, s'.Settled v := by
  induction h with
  | nil s => exact ⟨by simp, by simp⟩
  | skip hc hlaid ih =>
    obtain ⟨htargets, hclosed⟩ := ih hs
    refine ⟨List.forall_mem_cons.mpr ⟨?_, htargets⟩, hclosed⟩
    exact hlaid.extends.settled (Or.inl hc)
  | @park c cs s s' n l hc hl _ hlaid ih =>
    obtain ⟨htargets, hclosed⟩ := ih ((Extends.park s l c).fits hs)
    refine ⟨List.forall_mem_cons.mpr ⟨hlaid.extends.settled ?_, htargets⟩, hclosed⟩
    have hlt : l < s.parked.size := by
      rw [hs.parked_size]
      exact hs.open_lt l (List.mem_of_head? hl)
    exact Or.inr ⟨l, hl, mem_parkedAt_park hlt c⟩
  | @block c cs s below s' n m hc _ _ hbelow hlaid ih₁ ih₂ =>
    have hput := hbelow.extends.put hc
    obtain ⟨htargets₁, hclosed₁⟩ := ih₁ ⟨hs.parked_size, hs.open_lt⟩
    obtain ⟨htargets₂, hclosed₂⟩ := ih₂ (hput.fits hs)
    have hsettled : ∀ v, below.Settled v → s'.Settled v := fun v hv ↦
      hlaid.extends.settled (hv.imp_left fun hnot hf ↦ hnot (fresh_of_put hf))
    refine ⟨List.forall_mem_cons.mpr ⟨?_, htargets₂⟩, fun u hu v hv ↦ ?_⟩
    · exact hlaid.extends.settled
        (Or.inl (not_fresh_of_seen (hput.seen_of_mem List.mem_cons_self)))
    · rcases List.mem_append.mp hu with hu | hu
      · exact hclosed₂ u hu v hv
      · rcases List.mem_cons.mp hu with rfl | hu
        · exact hsettled v (htargets₁ v hv)
        · exact hsettled v (hclosed₁ u hu v hv)
  | @loop c cs s inside outside s' n₁ n₂ m l loop hc _ hl _ hinside houtside hlaid ih₁ ih₂ ih₃ =>
    have hjoin := Extends.join hc hinside.extends houtside.extends
    have hlt : l < loops.length := (List.getElem?_eq_some_iff.mp hl).1
    obtain ⟨htargets₁, hclosed₁⟩ := ih₁ ⟨hs.parked_size, List.forall_mem_cons.mpr ⟨hlt, hs.open_lt⟩⟩
    obtain ⟨htargets₂, hclosed₂⟩ := ih₂
      ⟨hinside.extends.parked_size.trans hs.parked_size, hs.open_lt⟩
    obtain ⟨htargets₃, hclosed₃⟩ := ih₃ (hjoin.fits hs)
    -- what was parked inside the loop is settled outside of it
    have hsettled : ∀ v, inside.Settled v → s'.Settled v := fun v hv ↦ by
      refine hlaid.extends.settled ?_
      rcases hv with hnot | ⟨l', hl', hv⟩
      · exact houtside.extends.settled (Or.inl fun hf ↦ hnot (fresh_of_leave hf))
      · rw [hinside.extends.open_eq] at hl'
        cases hl'
        exact htargets₂ v hv
    refine ⟨List.forall_mem_cons.mpr ⟨?_, htargets₃⟩, fun u hu v hv ↦ ?_⟩
    · exact hlaid.extends.settled
        (Or.inl (not_fresh_of_seen (hjoin.seen_of_mem (List.mem_append_left _ List.mem_cons_self))))
    · rcases List.mem_append.mp hu with hu | hu
      · exact hclosed₃ u hu v hv
      · rcases List.mem_append.mp hu with hu | hu
        · rcases List.mem_cons.mp hu with rfl | hu
          · exact hsettled v (htargets₁ v hv)
          · exact hsettled v (hclosed₁ u hu v hv)
        · exact hlaid.extends.settled (hclosed₂ u hu v hv)

theorem fits_start (n : Nat) (loops : List Loop) : Fits loops (start n loops.length) :=
  ⟨Array.size_replicate, by simp [start]⟩

theorem fresh_start {n : Nat} (k : Nat) {b : BlockIndex} : (start n k).Fresh b ↔ b < n := by
  rw [Fresh, start, Array.getElem?_replicate]
  split <;> simp_all

end Layout

namespace Graph

variable {g : Graph}

/-- The whole layout is a derivation from the entry. -/
theorem exists_laid (loops : List Loop) (hpos : 0 < g.blockCount)
    (hentry : ∀ loop ∈ loops, loop.header ≠ 0) :
    ∃ order s', g.layout loops = .ok order ∧
      Layout.Laid g loops [0] (.start g.blockCount loops.length) s' order := by
  have hcount : (Layout.start g.blockCount loops.length).freshCount ≤ g.blockCount := by
    refine (Finset.card_filter_le _ _).trans ?_
    rw [Finset.card_range, Layout.start, Array.size_replicate]
  obtain ⟨n, hn⟩ := Layout.foldl_follow_laid g loops g.blockCount [0] _ hcount
  have hfresh : (Layout.start g.blockCount loops.length).Fresh 0 :=
    (Layout.fresh_start _).mpr hpos
  have hany : loops.any (·.header = 0) = false := by
    rw [List.any_eq_false]
    exact fun loop hl ↦ by simpa using hentry loop hl
  refine ⟨n, _, ?_, hn⟩
  have horder := hn.extends.order_eq
  rw [List.foldl_cons, List.foldl_nil, Layout.follow, hfresh] at horder
  rw [layout, hany]
  exact congrArg Except.ok (horder.trans (List.append_nil n))

/-- A layout of a graph whose blocks can all be reached holds every block once. -/
theorem laid_perm (hg : g.Sound) (hreach : ∀ b < g.blockCount, g.Reachable b)
    (hpos : 0 < g.blockCount) {loops : List Loop} {s' : Layout} {n : List BlockIndex}
    (h : Layout.Laid g loops [0] (.start g.blockCount loops.length) s' n) :
    n.Perm (List.range g.blockCount) := by
  have hext := h.extends
  obtain ⟨htargets, hclosed⟩ := h.settled (Layout.fits_start _ _)
  have hsettled : ∀ {b}, s'.Settled b → b < g.blockCount → b ∈ n := by
    rintro b (hb | ⟨l, hl, -⟩) hlt
    · by_contra hn
      refine hb ?_
      rw [Layout.Fresh, hext.progress, if_neg hn]
      exact (Layout.fresh_start _).mpr hlt
    · rw [hext.open_eq] at hl
      cases hl
  have hall : ∀ b, g.Reachable b → b ∈ n := by
    intro b hb
    induction hb with
    | refl => exact hsettled (htargets 0 List.mem_cons_self) hpos
    | tail _ harc ih => exact hsettled (hclosed _ ih _ harc) (hg.arc_lt harc).2
  rw [List.perm_ext_iff_of_nodup hext.nodup List.nodup_range]
  intro b
  rw [List.mem_range]
  exact ⟨fun hb ↦ (Layout.fresh_start _).mp (hext.fresh b hb), fun hb ↦ hall b (hreach b hb)⟩

end Graph

end Flowgraph
