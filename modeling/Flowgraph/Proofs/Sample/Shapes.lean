import Flowgraph.Proofs.Sample.Sketches
import Flowgraph.Sample.Structured

/-!
# Shapes of structured control flow

What the generator decides on is a shape: constructs in a row, with shapes inside. Everything else
follows from it. A shape that starts at the unfinished block `a`, when the next block to come is
`n`, creates the blocks from `n` to `n + size`, and finishes `a` and all of them except for one,
where control goes on.

The blocks are numbered in such a way that three facts decide about loops. An edge goes to a block
with a higher number, or it is the one edge from the tail of a loop to its header. The members of a
loop are a range of numbers that begins with the header. And edges into the range from outside lead
to the header.

Each fact is proved by induction on the shape. An edge belongs to the construct itself or to one of
its parts, and parts have their blocks in ranges of their own, so that the bounds of `edge_bounds`
and `loop_bounds` tell the parts apart.
-/

namespace Flowgraph.Structured

/-- Constructs, one after the other and inside each other. -/
inductive Shape where
  | done
  /-- One shape after another. -/
  | seq (first second : Shape)
  /-- A further block. -/
  | step
  /-- Two shapes beside each other, and a block where they meet. -/
  | fork (left right : Shape)
  /-- A loop that is left at its header. -/
  | testFirst (body : Shape)
  /-- A loop that is left at its end. -/
  | testLast (body : Shape)

/-- A loop of blocks in a row: its header comes first, and an edge leads from its tail back to the
header. -/
structure Circuit where
  header : BlockIndex
  tail : BlockIndex
  stop : BlockIndex

def Circuit.members (c : Circuit) : List BlockIndex := List.range' c.header (c.stop - c.header)

theorem Circuit.mem_members {c : Circuit} {b : BlockIndex} :
    b ∈ c.members ↔ c.header ≤ b ∧ b < c.stop := by
  rw [members, List.mem_range'_1]
  lia

theorem Circuit.nodup_members (c : Circuit) : c.members.Nodup := List.nodup_range'

namespace Shape

/-- The number of blocks that a shape creates. -/
def size : Shape → Nat
  | done => 0
  | seq first second => first.size + second.size
  | step => 1
  | fork left right => 2 + left.size + right.size + 1
  | testFirst body => 2 + body.size + 1
  | testLast body => 1 + body.size + 1

/-- The number of constructs. -/
def cost : Shape → Nat
  | done => 0
  | seq first second => first.cost + second.cost
  | step => 1
  | fork left right => 1 + left.cost + right.cost
  | testFirst body | testLast body => 1 + body.cost

/-- The unfinished block at the end. -/
def exit : Shape → (a n : BlockIndex) → BlockIndex
  | done, a, _ => a
  | seq first second, a, n => second.exit (first.exit a n) (n + first.size)
  | step, _, n => n
  | fork left right, _, n => n + 2 + left.size + right.size
  | testFirst body, _, n => n + 2 + body.size
  | testLast body, _, n => n + 1 + body.size

/-- The finished blocks with their successors, in the order in which they are finished. -/
def links : Shape → (a n : BlockIndex) → List (BlockIndex × List BlockIndex)
  | done, _, _ => []
  | seq first second, a, n =>
    first.links a n ++ second.links (first.exit a n) (n + first.size)
  | step, a, n => [(a, [n])]
  | fork left right, a, n =>
    (a, [n, n + 1]) :: left.links n (n + 2) ++ right.links (n + 1) (n + 2 + left.size)
      ++ [(left.exit n (n + 2), [n + 2 + left.size + right.size]),
        (right.exit (n + 1) (n + 2 + left.size), [n + 2 + left.size + right.size])]
  | testFirst body, a, n =>
    (a, [n]) :: body.links (n + 1) (n + 2)
      ++ [(body.exit (n + 1) (n + 2), [n]), (n, [n + 1, n + 2 + body.size])]
  | testLast body, a, n =>
    (a, [n]) :: body.links n (n + 1) ++ [(body.exit n (n + 1), [n, n + 1 + body.size])]

/-- The loops in the order in which they are opened. -/
def loops : Shape → (n : BlockIndex) → List Circuit
  | done, _ | step, _ => []
  | seq first second, n => first.loops n ++ second.loops (n + first.size)
  | fork left right, n => left.loops (n + 2) ++ right.loops (n + 2 + left.size)
  | testFirst body, n =>
    ⟨n, body.exit (n + 1) (n + 2), n + 2 + body.size⟩ :: body.loops (n + 2)
  | testLast body, n => ⟨n, body.exit n (n + 1), n + 1 + body.size⟩ :: body.loops (n + 1)

attribute [local simp] size cost exit links loops

/-! ## Blocks

The blocks of a shape are a range of numbers, each of them is finished once, and the exit is the one
that is not. -/

variable {sh first second left right body : Shape} {a n u v b : BlockIndex} {c : Circuit}

theorem exit_bounds (sh : Shape) (a n : BlockIndex) :
    sh.exit a n = a ∨ n ≤ sh.exit a n ∧ sh.exit a n < n + sh.size := by
  induction sh generalizing a n with
  | done => exact Or.inl rfl
  | seq first second ih₁ ih₂ =>
    have := ih₁ a n
    have := ih₂ (first.exit a n) (n + first.size)
    rw [exit, size]
    lia
  | step | fork left right | testFirst body | testLast body =>
    rw [exit, size]
    lia

/-- The blocks of a shape are finished once each, but for the exit. -/
theorem links_perm (sh : Shape) (a n : BlockIndex) :
    (sh.exit a n :: (sh.links a n).map Prod.fst).Perm (a :: List.range' n sh.size) := by
  have htwo : ∀ m, List.range' m 2 = [m, m + 1] := fun _ ↦ rfl
  simp only [List.perm_iff_count]
  intro x
  induction sh generalizing a n with
  | done => rfl
  | seq first second ih₁ ih₂ =>
    have h₁ := ih₁ a n
    have h₂ := ih₂ (first.exit a n) (n + first.size)
    simp only [exit, links, size, ← List.range'_append_1, List.map_append, List.count_cons,
      List.count_append] at h₁ h₂ ⊢
    omega
  | step => exact (List.Perm.swap a n []).count_eq x
  | fork left right ihl ihr =>
    have hl := ihl n (n + 2)
    have hr := ihr (n + 1) (n + 2 + left.size)
    simp only [exit, links, size, ← List.range'_append_1, ← Nat.add_assoc, htwo, List.range'_one,
      List.map_cons, List.map_append, List.map_nil, List.count_cons, List.count_append,
      List.count_nil] at hl hr ⊢
    omega
  | testFirst body ih =>
    have hb := ih (n + 1) (n + 2)
    simp only [exit, links, size, ← List.range'_append_1, ← Nat.add_assoc, htwo, List.range'_one,
      List.map_cons, List.map_append, List.map_nil, List.count_cons, List.count_append,
      List.count_nil] at hb ⊢
    omega
  | testLast body ih =>
    have hb := ih n (n + 1)
    simp only [exit, links, size, ← List.range'_append_1, ← Nat.add_assoc, List.range'_one,
      List.map_cons, List.map_append, List.map_nil, List.count_cons, List.count_append,
      List.count_nil] at hb ⊢
    omega

theorem length_le_two (sh : Shape) (a n : BlockIndex) : ∀ p ∈ sh.links a n, p.2.length ≤ 2 := by
  induction sh generalizing a n with
  | done => nofun
  | seq first second ih₁ ih₂ => exact List.forall_mem_append.mpr ⟨ih₁ _ _, ih₂ _ _⟩
  | step => simp
  | fork left right ihl ihr =>
    simp only [links, List.forall_mem_append, List.forall_mem_cons]
    exact ⟨⟨⟨Nat.le_refl 2, ihl _ _⟩, ihr _ _⟩, by simp⟩
  | testFirst body ih | testLast body ih =>
    simp only [links, List.forall_mem_append, List.forall_mem_cons]
    exact ⟨⟨by simp, ih _ _⟩, by simp⟩

/-- A construct takes up to four operations. -/
theorem sum_opsFor_le (sh : Shape) (a n : BlockIndex) :
    ((sh.links a n).map fun p ↦ Sketch.opsFor p.2).sum ≤ 4 * sh.cost := by
  induction sh generalizing a n with
  | done => exact Nat.le_refl 0
  | seq first second ih₁ ih₂ =>
    have h₁ := ih₁ a n
    have h₂ := ih₂ (first.exit a n) (n + first.size)
    rw [links, List.map_append, List.sum_append, cost]
    omega
  | step => simp
  | fork left right ihl ihr =>
    have hl := ihl n (n + 2)
    have hr := ihr (n + 1) (n + 2 + left.size)
    simp only [links, List.map_append, List.map_cons, List.map_nil, List.sum_append, List.sum_cons,
      List.sum_nil, cost, Sketch.opsFor_one, Sketch.opsFor_two]
    omega
  | testFirst body ih =>
    have hb := ih (n + 1) (n + 2)
    simp only [links, List.map_append, List.map_cons, List.map_nil, List.sum_append, List.sum_cons,
      List.sum_nil, cost, Sketch.opsFor_one, Sketch.opsFor_two]
    omega
  | testLast body ih =>
    have hb := ih n (n + 1)
    simp only [links, List.map_append, List.map_cons, List.map_nil, List.sum_append, List.sum_cons,
      List.sum_nil, cost, Sketch.opsFor_one, Sketch.opsFor_two]
    omega

/-! ## Edges

The edges of a construct, case by case, with those of its parts. All ends of an edge are the first
block of the shape or lie in its range. -/

def Edge (sh : Shape) (a n u v : BlockIndex) : Prop := ∃ ts, (u, ts) ∈ sh.links a n ∧ v ∈ ts

theorem not_edge_done : ¬done.Edge a n u v := fun ⟨_, h, _⟩ ↦ nomatch h

theorem edge_seq : (seq first second).Edge a n u v ↔
    first.Edge a n u v ∨ second.Edge (first.exit a n) (n + first.size) u v := by
  simp [Edge, or_and_right, exists_or]

theorem edge_step : step.Edge a n u v ↔ u = a ∧ v = n := by
  simp [Edge]

theorem edge_fork : (fork left right).Edge a n u v ↔
    u = a ∧ (v = n ∨ v = n + 1) ∨ left.Edge n (n + 2) u v ∨
      right.Edge (n + 1) (n + 2 + left.size) u v ∨
      (u = left.exit n (n + 2) ∨ u = right.exit (n + 1) (n + 2 + left.size)) ∧
        v = n + 2 + left.size + right.size := by
  simp [Edge, or_and_right, exists_or]

theorem edge_testFirst : (testFirst body).Edge a n u v ↔
    u = a ∧ v = n ∨ body.Edge (n + 1) (n + 2) u v ∨ u = body.exit (n + 1) (n + 2) ∧ v = n ∨
      u = n ∧ (v = n + 1 ∨ v = n + 2 + body.size) := by
  simp [Edge, or_and_right, exists_or]

theorem edge_testLast : (testLast body).Edge a n u v ↔
    u = a ∧ v = n ∨ body.Edge n (n + 1) u v ∨
      u = body.exit n (n + 1) ∧ (v = n ∨ v = n + 1 + body.size) := by
  simp [Edge, or_and_right, exists_or]

/-! The edges of the parts are edges of the shape. -/

theorem Edge.seq_first (h : first.Edge a n u v) : (seq first second).Edge a n u v :=
  edge_seq.mpr (Or.inl h)

theorem Edge.seq_second (h : second.Edge (first.exit a n) (n + first.size) u v) :
    (seq first second).Edge a n u v :=
  edge_seq.mpr (Or.inr h)

theorem Edge.fork_left (h : left.Edge n (n + 2) u v) : (fork left right).Edge a n u v :=
  edge_fork.mpr (Or.inr (Or.inl h))

theorem Edge.fork_right (h : right.Edge (n + 1) (n + 2 + left.size) u v) :
    (fork left right).Edge a n u v :=
  edge_fork.mpr (Or.inr (Or.inr (Or.inl h)))

theorem Edge.testFirst_body (h : body.Edge (n + 1) (n + 2) u v) : (testFirst body).Edge a n u v :=
  edge_testFirst.mpr (Or.inr (Or.inl h))

theorem Edge.testLast_body (h : body.Edge n (n + 1) u v) : (testLast body).Edge a n u v :=
  edge_testLast.mpr (Or.inr (Or.inl h))

/-- Edges lead to the blocks that the shape creates, from these and from the first block. -/
theorem edge_bounds (h : sh.Edge a n u v) :
    (u = a ∨ n ≤ u ∧ u < n + sh.size) ∧ n ≤ v ∧ v < n + sh.size := by
  induction sh generalizing a n with
  | done => exact absurd h not_edge_done
  | seq first second ih₁ ih₂ =>
    have := first.exit_bounds a n
    rw [size]
    rcases edge_seq.mp h with h | h
    · have := ih₁ h
      lia
    · have := ih₂ h
      lia
  | step =>
    have := edge_step.mp h
    rw [size]
    lia
  | fork left right ihl ihr =>
    have := left.exit_bounds n (n + 2)
    have := right.exit_bounds (n + 1) (n + 2 + left.size)
    rw [size]
    rcases edge_fork.mp h with h | h | h | h
    · lia
    · have := ihl h
      lia
    · have := ihr h
      lia
    · lia
  | testFirst body ih =>
    have := body.exit_bounds (n + 1) (n + 2)
    rw [size]
    rcases edge_testFirst.mp h with h | h | h | h
    · lia
    · have := ih h
      lia
    · lia
    · lia
  | testLast body ih =>
    have := body.exit_bounds n (n + 1)
    rw [size]
    rcases edge_testLast.mp h with h | h | h
    · lia
    · have := ih h
      lia
    · lia

/-- Every new block can be entered from one with a lower number. -/
theorem exists_edge_below (sh : Shape) (ha : a < n) (hb : n ≤ b ∧ b < n + sh.size) :
    ∃ u < b, sh.Edge a n u b := by
  induction sh generalizing a n with
  | done =>
    rw [size] at hb
    lia
  | seq first second ih₁ ih₂ =>
    have := first.exit_bounds a n
    rw [size] at hb
    by_cases hfirst : b < n + first.size
    · obtain ⟨u, hu, h⟩ := ih₁ ha (by lia)
      exact ⟨u, hu, h.seq_first⟩
    · obtain ⟨u, hu, h⟩ := ih₂ (a := first.exit a n) (n := n + first.size) (by lia) (by lia)
      exact ⟨u, hu, h.seq_second⟩
  | step =>
    rw [size] at hb
    exact ⟨a, by lia, edge_step.mpr ⟨rfl, by lia⟩⟩
  | fork left right ihl ihr =>
    have := left.exit_bounds n (n + 2)
    rw [size] at hb
    by_cases hn : b = n ∨ b = n + 1
    · exact ⟨a, by lia, edge_fork.mpr (Or.inl ⟨rfl, hn⟩)⟩
    by_cases hl : b < n + 2 + left.size
    · obtain ⟨u, hu, h⟩ := ihl (a := n) (n := n + 2) (by lia) (by lia)
      exact ⟨u, hu, h.fork_left⟩
    by_cases hr : b < n + 2 + left.size + right.size
    · obtain ⟨u, hu, h⟩ := ihr (a := n + 1) (n := n + 2 + left.size) (by lia) (by lia)
      exact ⟨u, hu, h.fork_right⟩
    · have hjoin : b = n + 2 + left.size + right.size := by lia
      exact ⟨left.exit n (n + 2), by lia,
        edge_fork.mpr (Or.inr (Or.inr (Or.inr ⟨Or.inl rfl, hjoin⟩)))⟩
  | testFirst body ih =>
    rw [size] at hb
    by_cases hn : b = n
    · exact ⟨a, by lia, edge_testFirst.mpr (Or.inl ⟨rfl, hn⟩)⟩
    by_cases hh : b = n + 1 ∨ b = n + 2 + body.size
    · exact ⟨n, by lia, edge_testFirst.mpr (Or.inr (Or.inr (Or.inr ⟨rfl, hh⟩)))⟩
    · obtain ⟨u, hu, h⟩ := ih (a := n + 1) (n := n + 2) (by lia) (by lia)
      exact ⟨u, hu, h.testFirst_body⟩
  | testLast body ih =>
    have := body.exit_bounds n (n + 1)
    rw [size] at hb
    by_cases hn : b = n
    · exact ⟨a, by lia, edge_testLast.mpr (Or.inl ⟨rfl, hn⟩)⟩
    by_cases hlast : b = n + 1 + body.size
    · exact ⟨body.exit n (n + 1), by lia,
        edge_testLast.mpr (Or.inr (Or.inr ⟨rfl, Or.inr hlast⟩))⟩
    · obtain ⟨u, hu, h⟩ := ih (a := n) (n := n + 1) (by lia) (by lia)
      exact ⟨u, hu, h.testLast_body⟩

/-! ## Loops

A loop is a range of blocks with the header in front and the tail inside. Edges that lead back are
those from tails to headers. -/

/-- A loop lies among the new blocks. -/
theorem loop_bounds (hc : c ∈ sh.loops n) :
    n ≤ c.header ∧ c.header ≤ c.tail ∧ c.tail < c.stop ∧ c.stop ≤ n + sh.size := by
  induction sh generalizing n with
  | done | step => cases hc
  | seq first second ih₁ ih₂ =>
    rw [size]
    rcases List.mem_append.mp hc with hc | hc
    · have := ih₁ hc
      lia
    · have := ih₂ hc
      lia
  | fork left right ihl ihr =>
    rw [size]
    rcases List.mem_append.mp hc with hc | hc
    · have := ihl hc
      lia
    · have := ihr hc
      lia
  | testFirst body ih =>
    have := body.exit_bounds (n + 1) (n + 2)
    rw [size]
    rcases List.mem_cons.mp hc with rfl | hc
    · lia
    · have := ih hc
      lia
  | testLast body ih =>
    have := body.exit_bounds n (n + 1)
    rw [size]
    rcases List.mem_cons.mp hc with rfl | hc
    · lia
    · have := ih hc
      lia

/-- Loops are opened in the order of their headers. -/
theorem pairwise_header (sh : Shape) (n : BlockIndex) :
    (sh.loops n).Pairwise fun c c' ↦ c.header < c'.header := by
  induction sh generalizing n with
  | done | step => exact List.Pairwise.nil
  | seq first second ih₁ ih₂ =>
    refine List.pairwise_append.mpr ⟨ih₁ _, ih₂ _, fun c hc c' hc' ↦ ?_⟩
    have := loop_bounds hc
    have := loop_bounds hc'
    lia
  | fork left right ihl ihr =>
    refine List.pairwise_append.mpr ⟨ihl _, ihr _, fun c hc c' hc' ↦ ?_⟩
    have := loop_bounds hc
    have := loop_bounds hc'
    lia
  | testFirst body ih | testLast body ih =>
    refine List.pairwise_cons.mpr ⟨fun c' hc' ↦ ?_, ih _⟩
    have := loop_bounds hc'
    lia

/-- The edge from the tail of a loop leads back to its header. -/
theorem edge_of_loop (hc : c ∈ sh.loops n) : sh.Edge a n c.tail c.header := by
  induction sh generalizing a n with
  | done | step => cases hc
  | seq first second ih₁ ih₂ =>
    rcases List.mem_append.mp hc with hc | hc
    · exact (ih₁ hc).seq_first
    · exact (ih₂ hc).seq_second
  | fork left right ihl ihr =>
    rcases List.mem_append.mp hc with hc | hc
    · exact (ihl hc).fork_left
    · exact (ihr hc).fork_right
  | testFirst body ih =>
    rcases List.mem_cons.mp hc with rfl | hc
    · exact edge_testFirst.mpr (Or.inr (Or.inr (Or.inl ⟨rfl, rfl⟩)))
    · exact (ih hc).testFirst_body
  | testLast body ih =>
    rcases List.mem_cons.mp hc with rfl | hc
    · exact edge_testLast.mpr (Or.inr (Or.inr ⟨rfl, Or.inl rfl⟩))
    · exact (ih hc).testLast_body

/-- An edge that does not lead to a higher number is the one from the tail of a loop. -/
theorem exists_loop_of_edge (ha : a < n) (h : sh.Edge a n u v) (hvu : v ≤ u) :
    ∃ c ∈ sh.loops n, c.tail = u ∧ c.header = v := by
  induction sh generalizing a n with
  | done => exact absurd h not_edge_done
  | seq first second ih₁ ih₂ =>
    have := first.exit_bounds a n
    rcases edge_seq.mp h with h | h
    · obtain ⟨c, hc, heq⟩ := ih₁ ha h
      exact ⟨c, List.mem_append_left _ hc, heq⟩
    · obtain ⟨c, hc, heq⟩ := ih₂ (by lia) h
      exact ⟨c, List.mem_append_right _ hc, heq⟩
  | step =>
    have := edge_step.mp h
    lia
  | fork left right ihl ihr =>
    have := left.exit_bounds n (n + 2)
    have := right.exit_bounds (n + 1) (n + 2 + left.size)
    rcases edge_fork.mp h with h | h | h | h
    · lia
    · obtain ⟨c, hc, heq⟩ := ihl (by lia) h
      exact ⟨c, List.mem_append_left _ hc, heq⟩
    · obtain ⟨c, hc, heq⟩ := ihr (by lia) h
      exact ⟨c, List.mem_append_right _ hc, heq⟩
    · lia
  -- only a loop adds an edge that leads back, from the exit of its body
  | testFirst body ih =>
    rcases edge_testFirst.mp h with h | h | h | h
    · lia
    · obtain ⟨c, hc, heq⟩ := ih (by lia) h
      exact ⟨c, List.mem_cons_of_mem _ hc, heq⟩
    · exact ⟨_, List.mem_cons_self, h.1.symm, h.2.symm⟩
    · lia
  | testLast body ih =>
    have := body.exit_bounds n (n + 1)
    rcases edge_testLast.mp h with h | h | ⟨hu, hv | hv⟩
    · lia
    · obtain ⟨c, hc, heq⟩ := ih (by lia) h
      exact ⟨c, List.mem_cons_of_mem _ hc, heq⟩
    · exact ⟨_, List.mem_cons_self, hu.symm, hv.symm⟩
    · lia

/-- An edge enters a loop at its header only. -/
theorem loop_closed (ha : a < n) (hc : c ∈ sh.loops n) (h : sh.Edge a n u v)
    (hv : c.header < v ∧ v < c.stop) : c.header ≤ u ∧ u < c.stop := by
  induction sh generalizing a n with
  | done | step => cases hc
  | seq first second ih₁ ih₂ =>
    have := first.exit_bounds a n
    rcases List.mem_append.mp hc with hc | hc
    -- the edge has one end in the loop, and so it belongs to the part that the loop is in
    all_goals have := loop_bounds hc
    · rcases edge_seq.mp h with h | h
      · exact ih₁ ha hc h
      · have := edge_bounds h
        lia
    · rcases edge_seq.mp h with h | h
      · have := edge_bounds h
        lia
      · exact ih₂ (by lia) hc h
  | fork left right ihl ihr =>
    rcases List.mem_append.mp hc with hc | hc
    all_goals have := loop_bounds hc
    · rcases edge_fork.mp h with h | h | h | h
      · lia
      · exact ihl (by lia) hc h
      · have := edge_bounds h
        lia
      · lia
    · rcases edge_fork.mp h with h | h | h | h
      · lia
      · have := edge_bounds h
        lia
      · exact ihr (by lia) hc h
      · lia
  | testFirst body ih =>
    rcases List.mem_cons.mp hc with rfl | hc
    · rcases edge_testFirst.mp h with h | h | h | h
      · lia
      · have := edge_bounds h
        lia
      · lia
      · lia
    · have := loop_bounds hc
      rcases edge_testFirst.mp h with h | h | h | h
      · lia
      · exact ih (by lia) hc h
      · lia
      · lia
  | testLast body ih =>
    rcases List.mem_cons.mp hc with rfl | hc
    · rcases edge_testLast.mp h with h | h | h
      · lia
      · have := edge_bounds h
        lia
      · lia
    · have := loop_bounds hc
      rcases edge_testLast.mp h with h | h | h
      · lia
      · exact ih (by lia) hc h
      · lia

/-! ## Ways through a shape

The exit is reached from every block, and the tail of a loop from everything behind its header
without passing the header again. -/

/-- Edges of the shape lead from block to block. -/
def Path (sh : Shape) (a n : BlockIndex) : BlockIndex → BlockIndex → Prop :=
  Relation.ReflTransGen (sh.Edge a n)

theorem Path.lift {sh' : Shape} {a' n' b' : BlockIndex} (h : sh.Path a n b b')
    (hedge : ∀ u v, sh.Edge a n u v → sh'.Edge a' n' u v) : sh'.Path a' n' b b' :=
  Relation.ReflTransGen.mono hedge _ _ h

private theorem path_exit_fork {left right : Shape}
    (hl : ∀ {b}, b = n ∨ n + 2 ≤ b ∧ b < n + 2 + left.size →
      left.Path n (n + 2) b (left.exit n (n + 2)))
    (hr : ∀ {b}, b = n + 1 ∨ n + 2 + left.size ≤ b ∧ b < n + 2 + left.size + right.size →
      right.Path (n + 1) (n + 2 + left.size) b (right.exit (n + 1) (n + 2 + left.size)))
    (hb : b = a ∨ n ≤ b ∧ b < n + (fork left right).size) :
    (fork left right).Path a n b ((fork left right).exit a n) := by
  have hjoin : ∀ {u}, u = left.exit n (n + 2) ∨ u = right.exit (n + 1) (n + 2 + left.size) →
      (fork left right).Path a n u ((fork left right).exit a n) := fun hu ↦
    .single (edge_fork.mpr (Or.inr (Or.inr (Or.inr ⟨hu, rfl⟩))))
  have hleft : ∀ {b}, b = n ∨ n + 2 ≤ b ∧ b < n + 2 + left.size →
      (fork left right).Path a n b ((fork left right).exit a n) := fun hb ↦
    ((hl hb).lift fun _ _ ↦ Edge.fork_left).trans (hjoin (Or.inl rfl))
  rw [size] at hb
  rcases hb with rfl | hb
  · exact (hleft (Or.inl rfl)).head (edge_fork.mpr (Or.inl ⟨rfl, Or.inl rfl⟩))
  by_cases hbl : b = n ∨ n + 2 ≤ b ∧ b < n + 2 + left.size
  · exact hleft hbl
  by_cases hbr : b = n + 1 ∨ n + 2 + left.size ≤ b ∧ b < n + 2 + left.size + right.size
  · exact ((hr hbr).lift fun _ _ ↦ Edge.fork_right).trans (hjoin (Or.inr rfl))
  · obtain rfl : b = n + 2 + left.size + right.size := by lia
    exact .refl

private theorem path_exit (sh : Shape) (hb : b = a ∨ n ≤ b ∧ b < n + sh.size) :
    sh.Path a n b (sh.exit a n) := by
  induction sh generalizing a n b with
  | done =>
    rw [size] at hb
    obtain rfl : b = a := by lia
    exact .refl
  | seq first second ih₁ ih₂ =>
    have hsecond : ∀ {b}, b = first.exit a n ∨
        n + first.size ≤ b ∧ b < n + first.size + second.size →
        (seq first second).Path a n b ((seq first second).exit a n) := fun hb ↦
      (ih₂ hb).lift fun _ _ ↦ Edge.seq_second
    rw [size] at hb
    by_cases hfirst : b = a ∨ n ≤ b ∧ b < n + first.size
    · exact ((ih₁ hfirst).lift fun _ _ ↦ Edge.seq_first).trans (hsecond (Or.inl rfl))
    · exact hsecond (by lia)
  | step =>
    rw [size] at hb
    by_cases hba : b = a
    · exact .single (edge_step.mpr ⟨hba, rfl⟩)
    · obtain rfl : b = n := by lia
      exact .refl
  | fork left right ihl ihr => exact path_exit_fork ihl ihr hb
  | testFirst body ih =>
    have hheader : (testFirst body).Path a n n ((testFirst body).exit a n) :=
      .single (edge_testFirst.mpr (Or.inr (Or.inr (Or.inr ⟨rfl, Or.inr rfl⟩))))
    rw [size] at hb
    rcases hb with rfl | hb
    · exact hheader.head (edge_testFirst.mpr (Or.inl ⟨rfl, rfl⟩))
    by_cases hn : b = n
    · exact hn ▸ hheader
    by_cases hinside : b = n + 1 ∨ n + 2 ≤ b ∧ b < n + 2 + body.size
    · exact ((ih hinside).lift fun _ _ ↦ Edge.testFirst_body).trans
        (hheader.head (edge_testFirst.mpr (Or.inr (Or.inr (Or.inl ⟨rfl, rfl⟩)))))
    · obtain rfl : b = n + 2 + body.size := by lia
      exact .refl
  | testLast body ih =>
    have hbody : ∀ {b}, b = n ∨ n + 1 ≤ b ∧ b < n + 1 + body.size →
        (testLast body).Path a n b ((testLast body).exit a n) := fun hb ↦
      ((ih hb).lift fun _ _ ↦ Edge.testLast_body).tail
        (edge_testLast.mpr (Or.inr (Or.inr ⟨rfl, Or.inr rfl⟩)))
    rw [size] at hb
    rcases hb with rfl | hb
    · exact (hbody (Or.inl rfl)).head (edge_testLast.mpr (Or.inl ⟨rfl, rfl⟩))
    by_cases hinside : b = n ∨ n + 1 ≤ b ∧ b < n + 1 + body.size
    · exact hbody hinside
    · obtain rfl : b = n + 1 + body.size := by lia
      exact .refl

/-- Behind the header of a loop, edges lead from block to block. -/
def Inside (sh : Shape) (a n h : BlockIndex) : BlockIndex → BlockIndex → Prop :=
  Relation.ReflTransGen fun u v ↦ sh.Edge a n u v ∧ h < u ∧ h < v

private theorem Inside.lift {sh' : Shape} {a' n' b' h : BlockIndex} (hpath : sh.Inside a n h b b')
    (hedge : ∀ u v, sh.Edge a n u v → sh'.Edge a' n' u v) : sh'.Inside a' n' h b b' :=
  Relation.ReflTransGen.mono (fun _ _ h ↦ ⟨hedge _ _ h.1, h.2⟩) _ _ hpath

/-- A way through a shape that begins behind the header stays there, as the shape has no edge back
to the header. -/
private theorem Path.inside {b' h : BlockIndex} (hpath : sh.Path a n b b') (hn : h < n)
    (hb : h < b) : sh.Inside a n h b b' := by
  induction hpath using Relation.ReflTransGen.head_induction_on with
  | refl => exact .refl
  | @head u v hedge _ ih =>
    have := edge_bounds hedge
    exact (ih (by lia)).head ⟨hedge, hb, by lia⟩

/-- The members of a loop lead to its tail, not by the header. -/
theorem inside_tail (hc : c ∈ sh.loops n) (hb : c.header < b ∧ b < c.stop) :
    sh.Inside a n c.header b c.tail := by
  induction sh generalizing a n with
  | done | step => cases hc
  | seq first second ih₁ ih₂ =>
    rcases List.mem_append.mp hc with hc | hc
    · exact (ih₁ hc).lift fun _ _ ↦ Edge.seq_first
    · exact (ih₂ hc).lift fun _ _ ↦ Edge.seq_second
  | fork left right ihl ihr =>
    rcases List.mem_append.mp hc with hc | hc
    · exact (ihl hc).lift fun _ _ ↦ Edge.fork_left
    · exact (ihr hc).lift fun _ _ ↦ Edge.fork_right
  | testFirst body ih =>
    rcases List.mem_cons.mp hc with rfl | hc
    · have hpath := body.path_exit (a := n + 1) (n := n + 2) (b := b) (by lia)
      exact (hpath.inside (by lia) hb.1).lift fun _ _ ↦ Edge.testFirst_body
    · exact (ih hc).lift fun _ _ ↦ Edge.testFirst_body
  | testLast body ih =>
    rcases List.mem_cons.mp hc with rfl | hc
    · have hpath := body.path_exit (a := n) (n := n + 1) (b := b) (by lia)
      exact (hpath.inside (by lia) hb.1).lift fun _ _ ↦ Edge.testLast_body
    · exact (ih hc).lift fun _ _ ↦ Edge.testLast_body

end Shape

end Flowgraph.Structured
