import Flowgraph.Proofs.Liveness.Least

/-!
# The analysis ends on every graph

The analysis is made for graphs in special reverse postorder. On another graph it may find less
than it should, or more, but it still comes to an end. Neither the numbering of the blocks nor
their kinds matter for that; all it takes is that inputs are values of the graph.

## Why the control states do no harm

The control state of a merge can change back and forth. But nothing is walked again because of it.
A walk is rewound for two reasons only, and each of them can be given only so often: an operation
has become live, which it then stays, or a loop was walked for the first time, which leaves it in
the state `stays` no matter what comes behind it. Between two rewinds the bound falls with every
block. All this is in `Stepped.effort_lt`, which asks nothing of the order.
-/

namespace Flowgraph

namespace Graph

/-- Operation `i` of block `b` was removed earlier and is still taken as an input. -/
structure UsedDead (g : Graph) (i : OpIndex) (b : BlockIndex) : Prop where
  owner : g.owners[i]? = some b
  dead : ∃ op, g.ops[i]? = some op ∧ op.action = .dead
  used : ∃ user ∈ g.ops.toList, i ∈ user.inputs

/-- A cycle without a loop header, entered at its second block, and a loop header without a
cycle. -/
def sampleTangle : Graph :=
  ((Sketch.mk [[2], [2, 3], [1], []] [3]).graph .empty).toOption.getD (.empty .empty)

end Graph

namespace Liveness

variable {g : Graph} {s s' : Liveness}

/-- The states of the loop of the analysis, with the number of its turns: each turn walks one
block, as long as blocks are pending. -/
inductive Turns (g : Graph) : Nat → Liveness → Prop
  | init : Turns g 0 (start g)
  | turn {n : Nat} {s s' : Liveness} : Turns g n s → s.pending ≠ 0 → step g s = .ok s' →
      Turns g (n + 1) s'

/-- What is known in every turn, in whatever order the blocks are numbered. -/
structure Ongoing (g : Graph) (s : Liveness) : Prop where
  founded : Founded g g.wanted s
  pending_le : s.pending ≤ g.blockCount

private theorem ongoing_start (g : Graph) : Ongoing g (start g) :=
    ⟨founded_start g _, Nat.le_refl _⟩

section

variable (hg : g.Sound) (hvalues : g.ValuesExist)

include hg hvalues

/-- One turn: there is less to do behind it, or it stops at an operation that was removed earlier
and is used. -/
theorem Ongoing.step (h : Ongoing g s) (hpos : s.pending ≠ 0) :
    (∃ s', Liveness.step g s = .ok s' ∧ Ongoing g s' ∧ effort g s' < effort g s) ∨
      ∃ i b, g.UsedDead i b ∧ Liveness.step g s = .error (.removedStillUsed i b) := by
  obtain ⟨b, hb⟩ := Nat.exists_eq_succ_of_ne_zero hpos
  obtain ⟨blk, hblk⟩ := Graph.exists_block (show b < g.blockCount by
    have := h.pending_le; lia)
  have hsust := sustained_foldlM (b := b) hg hvalues g.liveClosed_wanted
    (l := (g.span b).toList.reverse)
    (w := ⟨{ s with pending := b }, controlAfter g { s with pending := b } b, false⟩)
    (h.founded.withPending b)
    (fun i hi ↦ (hg.mem_span_iff i b).mp (List.mem_reverse.mp hi))
    fun i _ op hop hjump ↦ Graph.wanted_of_isJump hop hjump
  have hstep := (step_eq hb).trans (walkBlock_eq hblk)
  cases hw : (g.span b).toList.reverse.foldlM (walkOp g b)
      ⟨{ s with pending := b }, controlAfter g { s with pending := b } b, false⟩ with
  | error e =>
    rw [hw] at hsust hstep
    obtain ⟨i, op, hown, hop, hdead, hi, rfl⟩ := hsust
    exact Or.inr ⟨i, b, ⟨hown, ⟨op, hop, hdead⟩, Graph.exists_user_of_wanted hop hdead hi⟩, hstep⟩
  | ok w =>
    rw [hw] at hsust hstep
    obtain ⟨b', blk', w', hst⟩ := exists_stepped hg h.founded.sized h.pending_le hpos hstep
    exact Or.inl ⟨_, hstep, ⟨(hsust.1.finish b blk).1, hst.pending_bound hg⟩, hst.effort_lt hg⟩

/-- The turns taken so far and what is left to do do not exceed what there was to do. -/
theorem Turns.ongoing {n : Nat} (h : Turns g n s) :
    Ongoing g s ∧ n + effort g s ≤ effort g (start g) := by
  induction h with
  | init => exact ⟨ongoing_start g, Nat.le_of_eq (Nat.zero_add _)⟩
  | turn _ hpos hstep ih =>
    obtain ⟨hongoing, hle⟩ := ih
    rcases hongoing.step hg hvalues hpos with ⟨s', hok, hongoing', hlt⟩ | ⟨i, b, -, herror⟩
    · rw [hstep] at hok
      cases hok
      exact ⟨hongoing', by lia⟩
    · rw [hstep] at herror
      cases herror

private theorem Turns.run : ∀ {steps n : Nat} {s : Liveness}, Turns g n s → effort g s ≤ steps →
    ∃ n', Turns g n' (Liveness.run g steps s).state ∧
      ((Liveness.run g steps s).state.pending = 0 ∧ (Liveness.run g steps s).breach? = none ∨
        (Liveness.run g steps s).state.pending ≠ 0 ∧ ∃ i b, g.UsedDead i b ∧
          Liveness.step g (Liveness.run g steps s).state = .error (.removedStillUsed i b) ∧
          (Liveness.run g steps s).breach? = some (.removedStillUsed i b)) := by
  intro steps
  induction steps with
  | zero =>
    intro n s h heffort
    exact ⟨n, h, Or.inl ⟨Nat.eq_zero_of_le_zero
      (Nat.le_trans (Nat.le_add_left _ _) heffort), rfl⟩⟩
  | succ steps ih =>
    intro n s h heffort
    rw [Liveness.run]
    by_cases hpos : s.pending = 0
    · rw [if_pos hpos]
      exact ⟨n, h, Or.inl ⟨hpos, rfl⟩⟩
    · rw [if_neg hpos]
      rcases (h.ongoing hg hvalues).1.step hg hvalues hpos with
        ⟨s', hstep, -, hlt⟩ | ⟨i, b, hdead, hstep⟩
      · rw [hstep]
        exact ih (h.turn hpos hstep) (by lia)
      · rw [hstep]
        exact ⟨n, h, Or.inr ⟨hpos, i, b, hdead, hstep, rfl⟩⟩

end

/-- The loop of the analysis takes finitely many turns, however the blocks are numbered and whatever
their kinds are. It ends with nothing pending, or it stops at an operation that was removed earlier
and is still used. -/
theorem livenessOutcome_ends {g : Graph} (hbuilt : g.Built) (hvalues : g.ValuesExist) :
    (∀ n s, Turns g n s → n ≤ stepBound g) ∧
      ∃ n, Turns g n g.livenessOutcome.state ∧
        (g.livenessOutcome.state.pending = 0 ∧ g.livenessOutcome.breach? = none ∨
          g.livenessOutcome.state.pending ≠ 0 ∧ ∃ i b, g.UsedDead i b ∧
            step g g.livenessOutcome.state = .error (.removedStillUsed i b) ∧
            g.livenessOutcome.breach? = some (.removedStillUsed i b)) := by
  have hg := hbuilt.sound
  refine ⟨fun n s h ↦ ?_, Turns.init.run hg hvalues (effort_start_le g)⟩
  exact Nat.le_trans (Nat.le_of_add_right_le (h.ongoing hg hvalues).2) (effort_start_le g)

theorem livenessOutcome_ends_sampleTangle :
    ∃ n ≤ stepBound Graph.sampleTangle,
      Turns Graph.sampleTangle n Graph.sampleTangle.livenessOutcome.state ∧
        Graph.sampleTangle.livenessOutcome.state.pending = 0 := by
  have hbuilt : Graph.sampleTangle.Built :=
    Sketch.graph_built ⟨[[2], [2, 3], [1], []], [3]⟩ .empty rfl
  have hinputs : ∀ op ∈ Graph.sampleTangle.ops.toList,
      op.action ≠ .dead ∧ ∀ j ∈ op.inputs, j < Graph.sampleTangle.opCount := by decide
  obtain ⟨hbound, n, hturns, hend⟩ := livenessOutcome_ends hbuilt fun hop ↦
    (hinputs _ (Array.mem_toList_iff.mpr (Array.mem_of_getElem? hop))).2
  refine ⟨n, hbound n _ hturns, hturns, ?_⟩
  rcases hend with ⟨hpending, -⟩ | ⟨-, i, b, hused, -⟩
  · exact hpending
  · obtain ⟨op, hop, hdead⟩ := hused.dead
    exact absurd hdead (hinputs op (Array.mem_toList_iff.mpr (Array.mem_of_getElem? hop))).1

end Liveness

end Flowgraph
