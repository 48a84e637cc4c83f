import Flowgraph.Proofs.Sample.Shapes

/-!
# What the generator draws

Every run of the generator draws a shape: `Drawn` says that the blocks, their successors and the
loops with their members are those of the shape, laid out from where the run began.

A run is followed step by step. `Ran` tells what has changed since a state, in such a way that two
runs in a row are a run. The loops that were open in the beginning get all new blocks as members,
and those that were opened since get the ones that came while they were open.
-/

namespace Flowgraph.Structured

/-! ## Tables

Finishing a block writes its successors into the table, and a new block is put into all loops that
are open. -/

/-- A table of successors after blocks were finished one after the other. -/
def fill (links : List (BlockIndex × List BlockIndex)) (table : Array (List BlockIndex)) :
    Array (List BlockIndex) :=
  links.foldl (fun t p ↦ t.setIfInBounds p.1 p.2) table

private theorem fill_append (links links' : List (BlockIndex × List BlockIndex))
    (table : Array (List BlockIndex)) :
    fill (links ++ links') table = fill links' (fill links table) := List.foldl_append

theorem size_fill (links : List (BlockIndex × List BlockIndex))
    (table : Array (List BlockIndex)) : (fill links table).size = table.size := by
  induction links generalizing table with
  | nil => rfl
  | cons p links ih => exact (ih _).trans (Array.size_setIfInBounds ..)

private theorem fill_append_right {links : List (BlockIndex × List BlockIndex)}
    {table table' : Array (List BlockIndex)} (h : ∀ p ∈ links, p.1 < table.size) :
    fill links (table ++ table') = fill links table ++ table' := by
  induction links generalizing table with
  | nil => rfl
  | cons p links ih =>
    rw [List.forall_mem_cons] at h
    change fill links ((table ++ table').setIfInBounds p.1 p.2)
      = fill links (table.setIfInBounds p.1 p.2) ++ table'
    rw [Array.setIfInBounds_append, if_pos h.1, ih]
    rw [Array.size_setIfInBounds]
    exact h.2

/-- Loops after a number of blocks were created: those that are open get them as members. -/
def grow (opened : List BlockIndex) (first count : Nat)
    (loops : List (BlockIndex × List BlockIndex)) : List (BlockIndex × List BlockIndex) :=
  loops.map fun l ↦ if opened.contains l.1 then (l.1, l.2 ++ List.range' first count) else l

private theorem grow_append (opened : List BlockIndex) (first count : Nat)
    (loops loops' : List (BlockIndex × List BlockIndex)) :
    grow opened first count (loops ++ loops')
      = grow opened first count loops ++ grow opened first count loops' := List.map_append

theorem grow_zero (opened : List BlockIndex) (first : Nat)
    (loops : List (BlockIndex × List BlockIndex)) : grow opened first 0 loops = loops := by
  simp [grow]

/-- Loops that are closed get no members. -/
@[simp] theorem grow_closed (first count : Nat) (loops : List (BlockIndex × List BlockIndex)) :
    grow [] first count loops = loops := by
  simp [grow]

/-- The blocks behind a header become members of its loop. -/
@[simp] theorem grow_header (h : BlockIndex) (first count : Nat) (members : List BlockIndex) :
    grow [h] first count [(h, members)] = [(h, members ++ List.range' first count)] := by
  simp [grow]

private theorem grow_grow (opened : List BlockIndex) (first count count' : Nat)
    (loops : List (BlockIndex × List BlockIndex)) :
    grow opened (first + count) count' (grow opened first count loops)
      = grow opened first (count + count') loops := by
  rw [grow, grow, grow, List.map_map]
  refine List.map_congr_left fun l _ ↦ ?_
  by_cases hl : opened.contains l.1 = true
  · simp only [Function.comp_apply, if_pos hl, List.append_assoc, List.range'_append_1]
  · simp only [Function.comp_apply, if_neg hl]

private theorem grow_congr {opened opened' : List BlockIndex} {first count : Nat}
    {loops : List (BlockIndex × List BlockIndex)} (h : ∀ l ∈ loops, l.1 ∈ opened ↔ l.1 ∈ opened') :
    grow opened first count loops = grow opened' first count loops := by
  refine List.map_congr_left fun l hl ↦ ?_
  have hiff : opened.contains l.1 = opened'.contains l.1 := by
    rw [Bool.eq_iff_iff, List.contains_iff_mem, List.contains_iff_mem]
    exact h l hl
  rw [hiff]

theorem mem_grow {opened : List BlockIndex} {first count : Nat}
    {loops : List (BlockIndex × List BlockIndex)} {l : BlockIndex × List BlockIndex}
    (h : l ∈ grow opened first count loops) : ∃ l' ∈ loops, l'.1 = l.1 := by
  obtain ⟨l', hl', rfl⟩ := List.mem_map.mp h
  refine ⟨l', hl', ?_⟩
  split <;> rfl

/-! ## Runs

What has changed between two states of the generator: new blocks, finished blocks and members of
loops. Budgets and words that were used do not matter for this. -/

namespace State

variable {s s₁ s₂ : State}

def size (s : State) : Nat := s.successors.size

/-- The loops belong to blocks. -/
structure Sane (s : State) : Prop where
  open_lt : ∀ h ∈ s.openLoops, h < s.size
  loop_lt : ∀ l ∈ s.loops, l.1 < s.size

/-- What has changed between two states: `count` new blocks, finished blocks, loops that are still
open, all loops that were opened, and the number of constructs. -/
structure Ran (s : State) (count : Nat) (links : List (BlockIndex × List BlockIndex))
    (inner : List BlockIndex) (found : List (BlockIndex × List BlockIndex)) (cost : Nat)
    (s₁ : State) : Prop where
  successors_eq : s₁.successors = fill links (s.successors ++ Array.replicate count [])
  source_lt : ∀ p ∈ links, p.1 < s.size + count
  loops_eq : s₁.loops = grow s.openLoops s.size count s.loops ++ found
  open_eq : s₁.openLoops = inner ++ s.openLoops
  inner_bounds : ∀ h ∈ inner, s.size ≤ h ∧ h < s.size + count
  found_bounds : ∀ l ∈ found, s.size ≤ l.1 ∧ l.1 < s.size + count
  budget_eq : s₁.budget + cost = s.budget

namespace Ran

variable {count count' cost cost' : Nat} {links links' : List (BlockIndex × List BlockIndex)}
  {inner : List BlockIndex} {found found' : List (BlockIndex × List BlockIndex)} {h : BlockIndex}

theorem size_eq (hr : Ran s count links inner found cost s₁) : s₁.size = s.size + count := by
  rw [size, hr.successors_eq, size_fill, Array.size_append, Array.size_replicate, size]

theorem sane (hs : s.Sane) (hr : Ran s count links inner found cost s₁) : s₁.Sane := by
  constructor
  · intro h hh
    rw [hr.open_eq, List.mem_append] at hh
    rw [hr.size_eq]
    rcases hh with hh | hh
    · exact (hr.inner_bounds h hh).2
    · exact Nat.lt_add_right _ (hs.open_lt h hh)
  · intro l hl
    rw [hr.loops_eq, List.mem_append] at hl
    rw [hr.size_eq]
    rcases hl with hl | hl
    · obtain ⟨l', hl', heq⟩ := mem_grow hl
      exact heq ▸ Nat.lt_add_right _ (hs.loop_lt l' hl')
    · exact (hr.found_bounds l hl).2

/-- Two runs in a row, of which the second one leaves no loop open. -/
theorem trans (hs : s.Sane) (hr : Ran s count links inner found cost s₁)
    (hr' : Ran s₁ count' links' [] found' cost' s₂) :
    Ran s (count + count') (links ++ links') inner
      (grow inner (s.size + count) count' found ++ found') (cost + cost') s₂ where
  successors_eq := by
    have hlt : ∀ p ∈ links, p.1 < (s.successors ++ Array.replicate count []).size := fun p hp ↦ by
      rw [Array.size_append, Array.size_replicate]
      exact hr.source_lt p hp
    rw [hr'.successors_eq, hr.successors_eq, ← fill_append_right hlt, Array.append_assoc,
      Array.replicate_append_replicate, fill_append]
  source_lt := by
    refine List.forall_mem_append.mpr ⟨fun p hp ↦ ?_, fun p hp ↦ ?_⟩
    · have := hr.source_lt p hp
      lia
    · rw [← Nat.add_assoc, ← hr.size_eq]
      exact hr'.source_lt p hp
  loops_eq := by
    have hold : grow (inner ++ s.openLoops) (s.size + count) count'
        (grow s.openLoops s.size count s.loops)
          = grow s.openLoops s.size (count + count') s.loops := by
      rw [← grow_grow]
      refine grow_congr fun l hl ↦ ?_
      obtain ⟨l', hl', heq⟩ := mem_grow hl
      have hlt := heq ▸ hs.loop_lt l' hl'
      rw [List.mem_append]
      exact or_iff_right fun hin ↦ absurd (hr.inner_bounds _ hin).1 (Nat.not_le.mpr hlt)
    have hnew : grow (inner ++ s.openLoops) (s.size + count) count' found
        = grow inner (s.size + count) count' found := by
      refine grow_congr fun l hl ↦ ?_
      rw [List.mem_append]
      exact or_iff_left fun hopen ↦
        absurd (hr.found_bounds l hl).1 (Nat.not_le.mpr (hs.open_lt _ hopen))
    rw [hr'.loops_eq, hr.open_eq, hr.loops_eq, hr.size_eq, grow_append, hold, hnew,
      List.append_assoc]
  open_eq := by rw [hr'.open_eq, hr.open_eq, List.nil_append]
  inner_bounds x hx := by
    have := hr.inner_bounds x hx
    lia
  found_bounds := by
    refine List.forall_mem_append.mpr ⟨fun l hl ↦ ?_, fun l hl ↦ ?_⟩
    · obtain ⟨l', hl', heq⟩ := mem_grow hl
      have := heq ▸ hr.found_bounds l' hl'
      lia
    · have := hr'.found_bounds l hl
      rw [hr.size_eq] at this
      lia
  budget_eq := by
    have := hr.budget_eq
    have := hr'.budget_eq
    lia

private theorem openLoop (hr : Ran s count links inner found cost s₁)
    (hh : s.size ≤ h ∧ h < s.size + count) :
    Ran s count links (h :: inner) (found ++ [(h, [h])]) cost
      { s₁ with loops := s₁.loops ++ [(h, [h])], openLoops := h :: s₁.openLoops } where
  successors_eq := hr.successors_eq
  source_lt := hr.source_lt
  loops_eq := by rw [hr.loops_eq, List.append_assoc]
  open_eq := by rw [hr.open_eq, List.cons_append]
  inner_bounds := List.forall_mem_cons.mpr ⟨hh, hr.inner_bounds⟩
  found_bounds := List.forall_mem_append.mpr
    ⟨hr.found_bounds, fun _ hl ↦ List.mem_singleton.mp hl ▸ hh⟩
  budget_eq := hr.budget_eq

private theorem closeLoop (hr : Ran s count links (h :: inner) found cost s₁) :
    Ran s count links inner found cost { s₁ with openLoops := s₁.openLoops.tail } where
  successors_eq := hr.successors_eq
  source_lt := hr.source_lt
  loops_eq := hr.loops_eq
  open_eq := by rw [hr.open_eq, List.cons_append, List.tail_cons]
  inner_bounds := (List.forall_mem_cons.mp hr.inner_bounds).2
  found_bounds := hr.found_bounds
  budget_eq := hr.budget_eq

/-- A run told in other words. -/
theorem of_eq (hr : Ran s count links inner found cost s₁) (hcount : count = count')
    (hlinks : links = links') (hfound : found = found') (hcost : cost = cost') :
    Ran s count' links' inner found' cost' s₁ := by
  subst hcount hlinks hfound hcost
  exact hr

end Ran

theorem ran_refl (s : State) : Ran s 0 [] [] [] 0 s where
  successors_eq := by simp [fill]
  source_lt := nofun
  loops_eq := by rw [grow_zero, List.append_nil]
  open_eq := rfl
  inner_bounds := nofun
  found_bounds := nofun
  budget_eq := rfl

private theorem ran_newBlock (s : State) : Ran s 1 [] [] [] 0 (Gen.newBlock.run s).2 where
  successors_eq := by
    change s.successors.push [] = _
    simp [fill]
  source_lt := nofun
  loops_eq := by
    rw [List.append_nil]
    rfl
  open_eq := rfl
  inner_bounds := nofun
  found_bounds := nofun
  budget_eq := rfl

private theorem ran_connect {b : BlockIndex} (hb : b < s.size) (ts : List BlockIndex) :
    Ran s 0 [(b, ts)] [] [] 0 ((Gen.connect b ts).run s).2 where
  successors_eq := by
    change s.successors.setIfInBounds b ts = _
    simp [fill]
  source_lt _ hp := List.mem_singleton.mp hp ▸ hb
  loops_eq := by
    rw [grow_zero, List.append_nil]
    rfl
  open_eq := rfl
  inner_bounds := nofun
  found_bounds := nofun
  budget_eq := rfl

/-- A word is read, and one unit of the budget is spent on a construct. -/
theorem ran_spend {s : State} (h : s.budget ≠ 0) (used : Nat) :
    Ran s 0 [] [] [] 1 { s with budget := s.budget - 1, used } where
  successors_eq := (ran_refl s).successors_eq
  source_lt := nofun
  loops_eq := (ran_refl s).loops_eq
  open_eq := rfl
  inner_bounds := nofun
  found_bounds := nofun
  budget_eq := Nat.sub_add_cancel (Nat.pos_of_ne_zero h)

private theorem ran_read (s : State) (used : Nat) : Ran s 0 [] [] [] 0 { s with used } where
  successors_eq := (ran_refl s).successors_eq
  source_lt := nofun
  loops_eq := (ran_refl s).loops_eq
  open_eq := rfl
  inner_bounds := nofun
  found_bounds := nofun
  budget_eq := rfl

end State

open State

/-! ## Shapes -/

/-- A loop as the generator notes it. -/
def Circuit.listed (c : Circuit) : BlockIndex × List BlockIndex := (c.header, c.members)

variable {sh : Shape} {s s₀ s₁ s₂ : State} {a b e : BlockIndex}

/-- A run from the unfinished block `a` has drawn a shape and gives its exit. -/
structure Drawn (sh : Shape) (s : State) (a e : BlockIndex) (s₁ : State) : Prop where
  exit_eq : e = sh.exit a s.size
  ran : Ran s sh.size (sh.links a s.size) [] ((sh.loops s.size).map Circuit.listed) sh.cost s₁

/-- Drawing a shape within a run. -/
theorem Drawn.within {count cost : Nat} {links : List (BlockIndex × List BlockIndex)}
    {inner : List BlockIndex} {found : List (BlockIndex × List BlockIndex)}
    (hd : Drawn sh s₁ a e s₂) (hs : s.Sane) (hr : Ran s count links inner found cost s₁) :
    e = sh.exit a (s.size + count) ∧
      Ran s (count + sh.size) (links ++ sh.links a (s.size + count)) inner
        (grow inner (s.size + count) sh.size found
          ++ (sh.loops (s.size + count)).map Circuit.listed) (cost + sh.cost) s₂ := by
  have h := hr.trans hs hd.ran
  rw [hr.size_eq] at h
  exact ⟨hr.size_eq ▸ hd.exit_eq, h⟩

private theorem Drawn.exit_lt (ha : a < s.size) (h : Drawn sh s a e s₁) : e < s₁.size := by
  have := sh.exit_bounds a s.size
  rw [h.exit_eq, h.ran.size_eq]
  lia

theorem drawn_done (hr : Ran s 0 [] [] [] 0 s₁) (a : BlockIndex) : Drawn .done s a a s₁ :=
  ⟨rfl, hr⟩

/-- One shape after another. -/
theorem Drawn.seq (hs : s.Sane) {first second : Shape} (h : Drawn first s a b s₁)
    (h' : Drawn second s₁ b e s₂) : Drawn (.seq first second) s a e s₂ := by
  obtain ⟨hexit, hran⟩ := h'.within hs h.ran
  rw [h.exit_eq] at hexit hran
  rw [grow_closed, ← List.map_append] at hran
  exact ⟨hexit, hran⟩

/-! ## Steps

The rules for putting runs together. A step leads to what it says about the states before and after,
and a sequence leads to the composition. -/

namespace Gen

/-- What a step gives and where it leads have a property. -/
def Leads {α : Type} (x : Gen α) (s : State) (Q : α → State → Prop) : Prop :=
  Q (x.run s).1 (x.run s).2

/-- Steps that draw shapes, wherever they begin. -/
def Draws (x : BlockIndex → Gen BlockIndex) : Prop :=
  ∀ s a, s.Sane → a < s.size → Leads (x a) s fun e s₁ ↦ ∃ sh, Drawn sh s a e s₁

variable {α β : Type} {x : Gen α} {Q : α → State → Prop}

theorem leads_bind {f : α → Gen β} {Q : β → State → Prop}
    (h : Leads x s fun a s' ↦ Leads (f a) s' Q) : Leads (x >>= f) s Q := h

theorem leads_pure {c : α} (h : Q c s) : Leads (pure c) s Q := h

theorem leads_get {Q : State → State → Prop} (h : Q s s) : Leads get s Q := h

private theorem leads_set {Q : PUnit → State → Prop} (h : Q ⟨⟩ s₁) : Leads (set s₁) s Q := h

theorem leads_word {source : Source} {Q : UInt64 → State → Prop}
    (h : Q (source.word s.used) { s with used := s.used + 1 }) : Leads (word source) s Q := h

theorem leads_four {source : Source} {Q : Nat → State → Prop}
    (h : Q ((source.word s.used).toNat % 4) { s with used := s.used + 1 }) :
    Leads (four source) s Q :=
  leads_bind (leads_word (leads_pure h))

private theorem leads_threeWithin {source : Source} {Q : Nat → State → Prop} (attempts : Nat)
    (h : ∀ choice used, Q choice { s with used }) : Leads (threeWithin source attempts) s Q := by
  induction attempts generalizing s with
  | zero => exact leads_bind (leads_word (leads_pure (h _ _)))
  | succ attempts ih =>
    rw [threeWithin]
    refine leads_bind (leads_word ?_)
    dsimp only
    split
    · exact ih h
    · exact h _ _

private theorem leads_three {source : Source} {Q : Nat → State → Prop}
    (h : ∀ choice used, Q choice { s with used }) : Leads (three source) s Q :=
  leads_bind (leads_get (leads_threeWithin _ h))

section Rules

variable {count cost : Nat} {links : List (BlockIndex × List BlockIndex)}
  {inner : List BlockIndex} {found : List (BlockIndex × List BlockIndex)}
  (hs : s.Sane) (hr : Ran s count links inner found cost s₁)

include hs hr

theorem leads_newBlock {Q : BlockIndex → State → Prop}
    (h : ∀ s₂, Ran s (count + 1) links inner (grow inner (s.size + count) 1 found) cost s₂ →
      Q (s.size + count) s₂) : Leads newBlock s₁ Q := by
  have hran := hr.trans hs (ran_newBlock s₁)
  rw [List.append_nil, List.append_nil] at hran
  have hQ := h _ hran
  rwa [← hr.size_eq] at hQ

theorem leads_connect {Q : Unit → State → Prop} (hb : b < s.size + count) {ts : List BlockIndex}
    (h : ∀ s₂, Ran s count (links ++ [(b, ts)]) inner found cost s₂ → Q () s₂) :
    Leads (connect b ts) s₁ Q := by
  have hran := hr.trans hs (ran_connect (hr.size_eq.symm ▸ hb) ts)
  rw [grow_zero, List.append_nil] at hran
  exact h _ hran

theorem leads_region {region : BlockIndex → Gen BlockIndex} (hregion : Draws region)
    {Q : BlockIndex → State → Prop} (hb : b < s.size + count)
    (h : ∀ (sh : Shape) (s₂ : State),
      Ran s (count + sh.size) (links ++ sh.links b (s.size + count)) inner
        (grow inner (s.size + count) sh.size found
          ++ (sh.loops (s.size + count)).map Circuit.listed) (cost + sh.cost) s₂ →
      Q (sh.exit b (s.size + count)) s₂) : Leads (region b) s₁ Q := by
  obtain ⟨sh, hdrawn⟩ := hregion s₁ b (hr.sane hs) (hr.size_eq.symm ▸ hb)
  obtain ⟨hexit, hran⟩ := hdrawn.within hs hr
  have hQ := h sh _ hran
  rwa [← hexit] at hQ

omit hs in
theorem leads_openLoop {Q : Unit → State → Prop} (hb : s.size ≤ b ∧ b < s.size + count)
    (h : ∀ s₂, Ran s count links (b :: inner) (found ++ [(b, [b])]) cost s₂ → Q () s₂) :
    Leads (openLoop b) s₁ Q :=
  h _ (hr.openLoop hb)

omit hs in
theorem leads_closeLoop {Q : Unit → State → Prop} {i : BlockIndex} {is : List BlockIndex}
    (hinner : inner = i :: is) (h : ∀ s₂, Ran s count links is found cost s₂ → Q () s₂) :
    Leads closeLoop s₁ Q :=
  h _ (Ran.closeLoop (hinner ▸ hr))

end Rules

/-! ## Constructs

Each of the four constructs draws the shape of its name, given that its regions draw shapes. -/

section Constructs

variable {source : Source} {region : BlockIndex → Gen BlockIndex} (hregion : Draws region)
  (hs : s.Sane) (ha : a < s.size) (hbudget : s.budget ≠ 0)

include hs ha hbudget

private theorem leads_step (hchoice : (source.word s.used).toNat % 4 = 3) :
    Leads (construct source region a) { s with budget := s.budget - 1 } fun e s' ↦
      Drawn .step s a e s' := by
  have h₀ := ran_spend hbudget (s.used + 1)
  refine leads_bind (leads_four ?_)
  rw [hchoice]
  refine leads_bind (leads_newBlock hs h₀ fun s₁ h₁ ↦ leads_bind ?_)
  refine leads_connect hs h₁ (b := a) (by lia) fun s₂ h₂ ↦ leads_pure ?_
  exact ⟨rfl, h₂⟩

include hregion

private theorem leads_fork (hchoice : (source.word s.used).toNat % 4 = 0) :
    Leads (construct source region a) { s with budget := s.budget - 1 } fun e s' ↦
      ∃ left right, Drawn (.fork left right) s a e s' := by
  have h₀ := ran_spend hbudget (s.used + 1)
  refine leads_bind (leads_four ?_)
  rw [hchoice]
  refine leads_bind (leads_newBlock hs h₀ fun s₁ h₁ ↦ leads_bind ?_)
  refine leads_newBlock hs h₁ fun s₂ h₂ ↦ leads_bind ?_
  refine leads_connect hs h₂ (b := a) (by lia) fun s₃ h₃ ↦ leads_bind ?_
  refine leads_region hs h₃ hregion (b := s.size + 0) (by lia) fun left s₄ h₄ ↦ leads_bind ?_
  refine leads_region hs h₄ hregion (b := s.size + 1) (by lia) fun right s₅ h₅ ↦ leads_bind ?_
  have hleft := left.exit_bounds s.size (s.size + 2)
  have hright := right.exit_bounds (s.size + 1) (s.size + (2 + left.size))
  refine leads_newBlock hs h₅ fun s₆ h₆ ↦ leads_bind ?_
  refine leads_connect hs h₆ (by simp; lia) fun s₇ h₇ ↦ leads_bind ?_
  refine leads_connect hs h₇ (by simp; lia) fun s₈ h₈ ↦ leads_pure ?_
  refine ⟨left, right, ?_, h₈.of_eq ?_ ?_ ?_ ?_⟩
  · simp [Shape.exit, Nat.add_assoc]
  · simp [Shape.size]
  · simp [Shape.links, Nat.add_assoc]
  · simp [Shape.loops, Nat.add_assoc]
  · simp [Shape.cost]

private theorem leads_testFirst (hchoice : (source.word s.used).toNat % 4 = 1) :
    Leads (construct source region a) { s with budget := s.budget - 1 } fun e s' ↦
      ∃ body, Drawn (.testFirst body) s a e s' := by
  have h₀ := ran_spend hbudget (s.used + 1)
  refine leads_bind (leads_four ?_)
  rw [hchoice]
  refine leads_bind (leads_newBlock hs h₀ fun s₁ h₁ ↦ leads_bind ?_)
  refine leads_connect hs h₁ (b := a) (by lia) fun s₂ h₂ ↦ leads_bind ?_
  refine leads_openLoop h₂ (b := s.size + 0) (by lia) fun s₃ h₃ ↦ leads_bind ?_
  refine leads_newBlock hs h₃ fun s₄ h₄ ↦ leads_bind ?_
  refine leads_region hs h₄ hregion (b := s.size + 1) (by lia) fun body s₅ h₅ ↦ leads_bind ?_
  have hbody := body.exit_bounds (s.size + 1) (s.size + 2)
  refine leads_connect hs h₅ (by simp; lia) fun s₆ h₆ ↦ leads_bind ?_
  refine leads_closeLoop h₆ rfl fun s₇ h₇ ↦ leads_bind ?_
  refine leads_newBlock hs h₇ fun s₈ h₈ ↦ leads_bind ?_
  refine leads_connect hs h₈ (b := s.size + 0) (by lia) fun s₉ h₉ ↦ leads_pure ?_
  refine ⟨body, ?_, h₉.of_eq ?_ ?_ ?_ ?_⟩
  · simp [Shape.exit, Nat.add_assoc]
  · simp [Shape.size]
  · simp [Shape.links, Nat.add_assoc]
  · -- the second block came while the loop was open, and so did those of the body
    have hmembers : _ = List.range' s.size (2 + body.size) := List.range'_append_1
    simp [Shape.loops, Circuit.listed, Circuit.members, Nat.add_assoc, ← hmembers, List.range'_succ]
  · simp [Shape.cost]

private theorem leads_testLast (hchoice : (source.word s.used).toNat % 4 = 2) :
    Leads (construct source region a) { s with budget := s.budget - 1 } fun e s' ↦
      ∃ body, Drawn (.testLast body) s a e s' := by
  have h₀ := ran_spend hbudget (s.used + 1)
  refine leads_bind (leads_four ?_)
  rw [hchoice]
  refine leads_bind (leads_newBlock hs h₀ fun s₁ h₁ ↦ leads_bind ?_)
  refine leads_connect hs h₁ (b := a) (by lia) fun s₂ h₂ ↦ leads_bind ?_
  refine leads_openLoop h₂ (b := s.size + 0) (by lia) fun s₃ h₃ ↦ leads_bind ?_
  refine leads_region hs h₃ hregion (b := s.size + 0) (by lia) fun body s₄ h₄ ↦ leads_bind ?_
  have hbody := body.exit_bounds s.size (s.size + 1)
  refine leads_closeLoop h₄ rfl fun s₅ h₅ ↦ leads_bind ?_
  refine leads_newBlock hs h₅ fun s₆ h₆ ↦ leads_bind ?_
  refine leads_connect hs h₆ (by simp; lia) fun s₇ h₇ ↦ leads_pure ?_
  refine ⟨body, ?_, h₇.of_eq ?_ ?_ ?_ ?_⟩
  · simp [Shape.exit, Nat.add_assoc]
  · simp [Shape.size]
  · simp [Shape.links, Nat.add_assoc]
  · have hmembers : _ = List.range' s.size (1 + body.size) := List.range'_append_1
    simp [Shape.loops, Circuit.listed, Circuit.members, Nat.add_assoc, ← hmembers]
  · simp [Shape.cost]

private theorem leads_construct :
    Leads (construct source region a) { s with budget := s.budget - 1 } fun e s' ↦
      ∃ sh, Drawn sh s a e s' := by
  obtain hchoice | hchoice | hchoice | hchoice : (source.word s.used).toNat % 4 = 0 ∨
      (source.word s.used).toNat % 4 = 1 ∨ (source.word s.used).toNat % 4 = 2 ∨
      (source.word s.used).toNat % 4 = 3 := by omega
  · obtain ⟨left, right, h⟩ := leads_fork hregion hs ha hbudget hchoice
    exact ⟨_, h⟩
  · obtain ⟨body, h⟩ := leads_testFirst hregion hs ha hbudget hchoice
    exact ⟨_, h⟩
  · obtain ⟨body, h⟩ := leads_testLast hregion hs ha hbudget hchoice
    exact ⟨_, h⟩
  · exact ⟨_, leads_step hs ha hbudget hchoice⟩

end Constructs

/-! ## Runs of the generator

By induction on the depth and, inside, on the budget. -/

variable {source : Source} {region : BlockIndex → Gen BlockIndex}

private theorem draws_constructs (hregion : Draws region) (count : Nat) :
    Draws (constructs source region count) := by
  intro s a hs ha
  induction count generalizing s a with
  | zero => exact ⟨.done, drawn_done (ran_refl s) a⟩
  | succ count ih =>
    rw [constructs]
    refine leads_bind (leads_get ?_)
    split
    case isTrue => exact ⟨.done, drawn_done (ran_refl s) a⟩
    case isFalse hbudget =>
      refine leads_bind (leads_set (leads_bind ?_))
      obtain ⟨first, h₁⟩ := leads_construct hregion hs ha hbudget
      obtain ⟨second, h₂⟩ := ih _ _ (h₁.ran.sane hs) (h₁.exit_lt ha)
      exact ⟨.seq first second, h₁.seq hs h₂⟩

private theorem draws_region (source : Source) (depth : Nat) : Draws (Gen.region source depth) := by
  induction depth with
  | zero => exact fun s a _ _ ↦ ⟨.done, drawn_done (ran_refl s) a⟩
  | succ depth ih =>
    intro s a hs ha
    refine leads_bind (leads_three fun choice used ↦ ?_)
    have hread := ran_read s used
    obtain ⟨sh, h⟩ := draws_constructs ih (choice + 1) _ a (hread.sane hs) ha
    exact ⟨.seq .done sh, (drawn_done hread a).seq hs h⟩

end Gen

/-- The sketch of a shape that is laid out from the entry on. -/
def Shape.sketch (sh : Shape) : Sketch where
  successors := (fill (sh.links 0 1) (Array.replicate (1 + sh.size) [])).toList
  headers := (sh.loops 1).map Circuit.header

/-- What is generated is a shape, whatever the source gives. -/
theorem exists_shape (source : Source) (depth budget : Nat) :
    ∃ sh : Shape, sh.cost ≤ budget ∧ (generateWithin source depth budget).sketch = sh.sketch ∧
      (generateWithin source depth budget).loops = (sh.loops 1).map Circuit.listed := by
  have hsane : (State.mk 0 budget #[[]] [] []).Sane := ⟨nofun, nofun⟩
  obtain ⟨sh, -, hran⟩ := Gen.draws_region source depth _ 0 hsane Nat.one_pos
  have hloops : (generateWithin source depth budget).loops = (sh.loops 1).map Circuit.listed :=
    hran.loops_eq
  have hblank : #[[]] ++ Array.replicate sh.size []
      = Array.replicate (1 + sh.size) ([] : List BlockIndex) := by
    rw [← Array.replicate_append_replicate]
    rfl
  have hsuccessors : (generateWithin source depth budget).sketch.successors
      = sh.sketch.successors :=
    congrArg Array.toList (hran.successors_eq.trans (congrArg _ hblank))
  have hheaders : (generateWithin source depth budget).sketch.headers = sh.sketch.headers :=
    (congrArg (List.map Prod.fst) hloops).trans List.map_map
  exact ⟨sh, (Nat.le_add_left _ _).trans_eq hran.budget_eq,
    congrArg₂ Sketch.mk hsuccessors hheaders, hloops⟩

end Flowgraph.Structured
