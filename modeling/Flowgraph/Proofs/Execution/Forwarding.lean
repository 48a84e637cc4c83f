import Flowgraph.Proofs.Execution.Elimination
import Flowgraph.Proofs.Rebuild.Forwarding

/-!
# Forwarding phis does not change what a graph does

When a phi is forwarded, what used its value uses the value of another operation. In a graph whose
definitions dominate their uses, the two are the same wherever the value can be used. This is shown
for runs of the source alone; what the copy does then follows from what dropping dead operations
does.

## Where values agree

A value can be used where its definition dominates. There a phi that is forwarded has the value of
the operation that stands for it, and it keeps that value: to give the other operation a new one,
control has to go back to where that operation stands, and then the phi is out of reach until it is
run again. So what has to be carried along is that the two agree as long as the phi is in reach, and
that a block whose phis are still to be run finds the right value in the slot that it was entered
through.
-/

namespace Flowgraph

namespace Graph

variable {g : Graph}

/-- The value of operation `j` can be used in block `b` behind the operations `pre`. -/
def Available (g : Graph) (b : BlockIndex) (pre : List OpIndex) (j : OpIndex) : Prop :=
  j ∈ pre ∨ ∃ d, j ∈ (g.span d).toList ∧ d ≠ b ∧ g.Dominates d b

/-- At the end of a block the values of its dominators can be used, and its own. -/
theorem available_of_dominates {b d : BlockIndex} {j : OpIndex} (hj : j ∈ (g.span d).toList)
    (hdom : g.Dominates d b) : g.Available b (g.span b).toList j := by
  by_cases hd : d = b
  · exact Or.inl (hd ▸ hj)
  · exact Or.inr ⟨d, hj, hd, hdom⟩

private theorem Available.of_arc {b t : BlockIndex} {j : OpIndex} (h : g.Available t [] j)
    (harc : g.Arc b t) : g.Available b (g.span b).toList j := by
  rcases h with hnil | ⟨d, hj, hne, hdom⟩
  · cases hnil
  · exact available_of_dominates hj (hdom.of_arc (Ne.symm hne) harc)

variable (hg : g.Sound) (hfit : g.Fit) (huses : g.DominatedUses)

include hg hfit huses

private theorem DominatedUses.available {b : BlockIndex} {pre post : List OpIndex} {i j : OpIndex}
    {op : Operation} (hspan : (g.span b).toList = pre ++ i :: post) (hop : g.ops[i]? = some op)
    (hphi : op.isPhi = false) (hj : j ∈ op.inputs) : g.Available b pre j := by
  have hi : i ∈ (g.span b).toList := by rw [hspan]; simp
  obtain ⟨d, hd⟩ := hg.exists_owner ((hfit.wellFormed.referring hop).value_lt j hj)
  obtain ⟨hdom, hlt⟩ := huses.plain hop hphi ((hg.mem_span_iff i b).mp hi) hj
    ((hg.mem_span_iff j d).mp hd)
  by_cases hsame : d = b
  · -- the operations of a block are in order
    subst hsame
    have hsorted : (g.span d).toList.Pairwise (· < ·) := List.pairwise_lt_range'
    rw [hspan, List.pairwise_append, List.pairwise_cons] at hsorted
    rw [hspan, List.mem_append, List.mem_cons] at hd
    refine Or.inl (hd.resolve_right ?_)
    rintro (rfl | hpost)
    · exact Nat.lt_irrefl j (hlt rfl)
    · exact Nat.lt_asymm (hlt rfl) (hsorted.2.1.1 j hpost)
  · exact Or.inr ⟨d, hd, hsame, hdom⟩

end Graph

namespace Execution

universe u

variable {V : Type u} {I : Interpretation V} {g : Graph} {ρ : OpIndex → OpIndex} {b : BlockIndex}
  {e : Entrance V} {m : Memory V}

private theorem perform_value_of_ne {i j : OpIndex} {op : Operation} (h : j ≠ i) :
    (perform I e m i op).value j = m.value j := by
  rw [perform]
  split <;> exact Function.update_of_ne h _ _

private theorem perform_value_of_isPhi {i : OpIndex} {op : Operation} (h : op.isPhi = true) :
    (perform I e m i op).value i = e.pick I op.inputs := by
  obtain ⟨action, inputs⟩ := op
  cases action with
  | phi rep => exact Function.update_self i _ _
  | _ => cases h

private theorem exists_slot_of_leave (hg : g.Sound) {t : BlockIndex} {slot : Option Nat}
    (h : leave g I b m = .running t slot) :
    ∃ k, slot = some k ∧ (g.predecessors t)[k]? = some b := by
  have hfollow : ∀ {side}, follow g b side = Status.running (V := V) t slot →
      ∃ k, slot = some k ∧ (g.predecessors t)[k]? = some b := by
    intro side hside
    rw [follow] at hside
    split at hside
    · rename_i t' ht
      cases hside
      obtain ⟨k, hk⟩ := exists_slot_of_side hg ht
      exact ⟨k, hk, (getElem?_positionsOf.mp hk).1⟩
    · cases hside
  rw [leave] at h
  split at h
  · cases h
  · split at h
    · exact hfollow h
    · exact hfollow h
    · cases h
    · cases h

/-- In block `b`, behind the operations `pre`: what can be used of an operation is also the value of
the operation that stands for it, and so is what a phi takes that is forwarded. -/
structure Settled (g : Graph) (I : Interpretation V) (ρ : OpIndex → OpIndex) (b : BlockIndex)
    (e : Entrance V) (pre : List OpIndex) (m : Memory V) : Prop where
  value : ∀ {j : OpIndex}, g.Available b pre j → m.value (ρ j) = m.value j
  phi : ∀ {i : OpIndex} {op : Operation}, i ∈ (g.span b).toList → g.ops[i]? = some op →
    ρ i ≠ i → m.value (ρ i) = e.pick I op.inputs

/-- A state in which the operations of the next block are settled before it is run. -/
def State.Settled (g : Graph) (I : Interpretation V) (ρ : OpIndex → OpIndex) (σ : State V) : Prop :=
  ∀ b slot, σ.status = .running b slot →
    Execution.Settled g I ρ b ⟨slot, σ.memory.value⟩ [] σ.memory

section

variable (hg : g.Sound) (hfit : g.Fit) (hord : g.InReversePostorder) (huses : g.DominatedUses)
  (hρ : g.Forwards ρ)

include hg hfit hord huses hρ

private theorem root_ne_of_available {pre post : List OpIndex} {i j : OpIndex}
    (hj : g.Available b pre j) (hspan : (g.span b).toList = pre ++ i :: post) (hne : j ≠ i) :
    ρ j ≠ i := by
  intro heq
  have hi : i ∈ (g.span b).toList := by rw [hspan]; simp
  have hroot : ρ j ≠ j := fun hself ↦ hne (hself.symm.trans heq)
  obtain ⟨d, hjd, hle⟩ : ∃ d, j ∈ (g.span d).toList ∧ d ≤ b := by
    rcases hj with hmem | ⟨d, hjd, -, hdom⟩
    · exact ⟨b, by rw [hspan]; exact List.mem_append_left _ hmem, Nat.le_refl b⟩
    · exact ⟨d, hjd, hdom.le hg hfit hord (Graph.lt_blockCount_of_mem_span hi)⟩
  have hlt := (hρ.dominates hg hfit hord huses hroot hjd (heq.symm ▸ hi)).1
  exact Nat.lt_irrefl b (Nat.lt_of_lt_of_le hlt hle)

private theorem Settled.perform {pre post : List OpIndex} {i : OpIndex} {op : Operation}
    (h : Settled g I ρ b e pre m) (hspan : (g.span b).toList = pre ++ i :: post)
    (hop : g.ops[i]? = some op) : Settled g I ρ b e (pre ++ [i]) (perform I e m i op) := by
  have hi : i ∈ (g.span b).toList := by rw [hspan]; simp
  refine ⟨fun {j} hj ↦ ?_, fun {k opk} hk hopk hne ↦ ?_⟩
  · by_cases hji : j = i
    · -- a forwarded phi takes what the other operation has
      subst hji
      by_cases hroot : ρ j = j
      · rw [hroot]
      · obtain ⟨-, -, op', -, -, -, hop', hphi, -⟩ := hρ.phi hroot
        cases hop.symm.trans hop'
        rw [perform_value_of_ne hroot, perform_value_of_isPhi hphi]
        exact h.phi hi hop hroot
    · have hj' : g.Available b pre j := by
        rcases hj with hmem | hdom
        · rw [List.mem_append, List.mem_singleton] at hmem
          exact Or.inl (hmem.resolve_right hji)
        · exact Or.inr hdom
      rw [perform_value_of_ne hji,
        perform_value_of_ne (root_ne_of_available hg hfit hord huses hρ hj' hspan hji)]
      exact h.value hj'
  -- a phi that is still to come is forwarded to something above the block, which `i` is not
  · have hroot : ρ k ≠ i := by
      intro heq
      exact Nat.lt_irrefl b (hρ.dominates hg hfit hord huses hne hk (heq.symm ▸ hi)).1
    rw [perform_value_of_ne hroot]
    exact h.phi hk hopk hne

/-- The operations of the block, up to any one of them. -/
theorem Settled.performAll (h : Settled g I ρ b e [] m) : ∀ {pre post : List OpIndex},
    (g.span b).toList = pre ++ post → Settled g I ρ b e pre (performAll g I e m pre) := by
  intro pre
  induction pre using List.reverseRecOn with
  | nil => exact fun _ ↦ h
  | append_singleton pre i ih =>
    intro post hspan
    rw [List.append_assoc, List.singleton_append] at hspan
    have hi : i ∈ (g.span b).toList := by rw [hspan]; simp
    obtain ⟨op, hop⟩ := Graph.exists_op (hg.lt_of_mem_span hi)
    rw [performAll_concat hop]
    exact (ih hspan).perform hg hfit hord huses hρ hspan hop

omit hord in
/-- The block that control goes to finds in the slot of the edge what its forwarded phis take. -/
private theorem Settled.enter {t : BlockIndex} {k : Nat} (h : Settled g I ρ b e (g.span b).toList m)
    (hk : (g.predecessors t)[k]? = some b) : Settled g I ρ t ⟨some k, m.value⟩ [] m := by
  have harc : g.Arc b t := hg.mem_predecessors_iff.mp (List.mem_of_getElem? hk)
  refine ⟨fun hj ↦ h.value (hj.of_arc harc), fun {i op} hi hop hne ↦ ?_⟩
  obtain ⟨-, -, op', -, -, -, hop', hphi, hinputs⟩ := hρ.phi hne
  cases hop.symm.trans hop'
  obtain ⟨j, d, hj, hd, hdom⟩ := huses.exists_input hg hfit hi hop hphi hk
  have hvalue := h.value (Graph.available_of_dominates hd hdom)
  rw [hinputs j (List.mem_of_getElem? hj)] at hvalue
  simp only [Entrance.pick, Option.bind_some, hj, Option.elim_some, hvalue]

private theorem State.Settled.step {σ : State V} (h : σ.Settled g I ρ) :
    (step g I σ).Settled g I ρ := by
  obtain ⟨status, m⟩ := σ
  cases status with
  | running b slot =>
    intro t slot' hrun
    rw [step_of_running] at hrun ⊢
    obtain ⟨k, rfl, hk⟩ := exists_slot_of_leave hg hrun
    have hdone := (h b slot rfl).performAll hg hfit hord huses hρ (List.append_nil _).symm
    exact hdone.enter hg hfit huses hρ hk
  | returned values => exact h
  | stuck => exact h

private theorem settled_run (n : Nat) : (run g I n).Settled g I ρ := by
  induction n with
  | zero =>
    intro b slot hrun
    cases hrun
    exact ⟨fun _ ↦ rfl, fun _ _ _ ↦ rfl⟩
  | succ n ih =>
    rw [run_succ]
    exact ih.step hg hfit hord huses hρ

private theorem Settled.reads (h : Settled g I ρ b e [] m) : Reads g I ρ b e m := by
  have hdone := h.performAll hg hfit hord huses hρ (List.append_nil _).symm
  refine ⟨fun {pre post i j op} hspan hop hphi hj ↦ ?_, fun {i j op} hi hop hend hj ↦ ?_,
    fun {t k i j op} hi hop hphi hk hj ↦ ?_⟩
  · exact (h.performAll hg hfit hord huses hρ hspan).value
      (huses.available hg hfit hspan hop hphi hj)
  · have hphi : op.isPhi = false := by
      by_contra hphi
      rw [Operation.isTerminator_of_isPhi (Bool.not_eq_false _ ▸ hphi)] at hend
      cases hend
    obtain ⟨d, hd⟩ := hg.exists_owner ((hfit.wellFormed.referring hop).value_lt j hj)
    obtain ⟨hdom, -⟩ := huses.plain hop hphi ((hg.mem_span_iff i b).mp (Span.last?_mem hi)) hj
      ((hg.mem_span_iff j d).mp hd)
    exact hdone.value (Graph.available_of_dominates hd hdom)
  · obtain ⟨j', d, hj', hd, hdom⟩ := huses.exists_input hg hfit hi hop hphi hk
    cases hj.symm.trans hj'
    exact hdone.value (Graph.available_of_dominates hd hdom)

private theorem behaviour_of_rebuilt {g' : Graph} {s : Liveness}
    {β : BlockIndex → Option BlockIndex} {ε : OpIndex → Option OpIndex} (hA : Liveness.Analysed g s)
    (hR : Rebuilt g s g' β ε ρ) :
    (∀ es, Emits g I es ↔ Emits g' I es) ∧ (∀ values, Returns g I values ↔ Returns g' I values) ∧
      (Diverges g I ↔ Diverges g' I) :=
  behaviour_of_simulates (exists_simulates_of_faithful hA hR fun n b slot hrun ↦
    (settled_run hg hfit hord huses hρ n b slot hrun).reads hg hfit hord huses hρ)

end

/-- With forwarded phis elimination gives a graph that is not told apart from the one that it gives
without: for any meaning of the operations, the events come in the same order with the same
arguments, the same values are returned, and one run goes on forever exactly if the other one does.
In the merges of that graph no phi is left to be forwarded. -/
theorem behaviour_of_forwarding {g : Graph} (hbuilt : g.Built) (hfit : g.problems true = [])
    (huses : g.DominatedUses) (hused : g.DeadUnused) :
    ∃ g₀ s₀ g₁ s₁, g.eliminate false = .ok (g₀, s₀) ∧ g.eliminate true = .ok (g₁, s₁) ∧
      (∀ {V : Type u} (I : Interpretation V), (∀ es, Emits g₁ I es ↔ Emits g₀ I es) ∧
        (∀ values, Returns g₁ I values ↔ Returns g₀ I values) ∧
        (Diverges g₁ I ↔ Diverges g₀ I)) ∧
      g₁.PhisDiffer := by
  have hg := hbuilt.sound
  obtain ⟨hf, hord⟩ := (Graph.problems_eq_nil hg true).mp hfit
  obtain ⟨s, hs⟩ := Liveness.exists_liveness hg hf (hord rfl) hused
  have hA := Liveness.analysed_of_liveness hbuilt hfit hs
  have hready : Liveness.Ready g s :=
    Liveness.ready_of_definedFirst hg (huses.definedFirst hg hf (hord rfl)) s
  obtain ⟨g₀, hg₀, -⟩ := exists_rebuild hA hready false
  obtain ⟨β₀, ω₀, hR₀⟩ := exists_reduced hA hg₀
  obtain ⟨g₁, β₁, ε₁, ρ, hg₁, hR₁, hthin, hdiffer⟩ := exists_forwarded hA hready
  have hresult : ∀ {forwardPhis g'}, g.rebuild (Graph.eliminators s forwardPhis) = .ok g' →
      g.eliminate forwardPhis = .ok (g', s) := by
    intro forwardPhis g' hg'
    rw [Graph.eliminate, hs, ok_bind, hg', ok_bind]
    rfl
  refine ⟨g₀, s, g₁, s, hresult hg₀, hresult hg₁, fun I ↦ ?_, hdiffer⟩
  obtain ⟨hemits₀, hreturns₀, hdiverges₀⟩ :=
    behaviour_of_simulates (exists_simulates hA hR₀ (I := I))
  obtain ⟨hemits₁, hreturns₁, hdiverges₁⟩ :=
    behaviour_of_rebuilt (I := I) hg hf (hord rfl) huses (hR₁.forwards hA hthin) hA hR₁
  exact ⟨fun es ↦ (hemits₁ es).symm.trans (hemits₀ es),
    fun values ↦ (hreturns₁ values).symm.trans (hreturns₀ values),
    hdiverges₁.symm.trans hdiverges₀⟩

/-- A value that goes into a phi on both sides of a branch, and into a second phi together with the
first one. -/
def paramBlocks : List (BlockKind × List Operation) :=
  [(.entry, [⟨.other .empty true, []⟩, .branch 0 1 2 .unhinted]),
    (.plain, [⟨.other .empty true, [0]⟩, .goto 3]),
    (.plain, [⟨.call .empty, [0]⟩, .branch 0 3 4 .unhinted]),
    (.merge, [⟨.phi .tagged, [0, 0]⟩, .goto 4]),
    (.merge, [⟨.phi .tagged, [0, 6]⟩, .ret [8]])]

/-- The graph of a value that goes through phis unchanged. -/
def sampleParam : Graph := (Graph.ofBlocks paramBlocks).toOption.getD (.empty .empty)

private theorem sampleParam_built : sampleParam.Built :=
  Graph.ofBlocks_built (show Graph.ofBlocks paramBlocks = _ from rfl)

private theorem dominatedUses_sampleParam : sampleParam.DominatedUses := by
  have hentry : ∀ b, sampleParam.Dominates 0 b := fun b ↦
    Graph.dominates_of_closed (S := []) (Or.inr rfl) nofun nofun
  have hplain : ∀ i < sampleParam.opCount, ∀ op ∈ sampleParam.ops[i]?, op.isPhi = false →
      ∀ b ∈ sampleParam.owners[i]?, ∀ j ∈ op.inputs, ∀ d ∈ sampleParam.owners[j]?,
        (d = b ∨ d = 0) ∧ (d = b → j < i) := by decide
  have hphi : ∀ i < sampleParam.opCount, ∀ op ∈ sampleParam.ops[i]?, op.isPhi = true →
      ∀ b ∈ sampleParam.owners[i]?, ∀ k < op.inputs.length, ∀ j ∈ op.inputs[k]?,
        ∀ p ∈ (sampleParam.predecessors b)[k]?, ∀ d ∈ sampleParam.owners[j]?,
          d = p ∨ d = 0 := by decide
  have hdom : ∀ {d b}, d = b ∨ d = 0 → sampleParam.Dominates d b := by
    rintro d b (rfl | rfl)
    · exact Graph.dominates_self d
    · exact hentry b
  refine ⟨fun {i j op b d} hop hnot hb hj hd ↦ ?_, fun {i j op b p d k} hop hisPhi hb hk hp hd ↦ ?_⟩
  · obtain ⟨hplace, hlt⟩ := hplain i (Graph.lt_opCount hop) op hop hnot b hb j hj d hd
    exact ⟨hdom hplace, hlt⟩
  · have hklt := (List.getElem?_eq_some_iff.mp hk).1
    exact hdom (hphi i (Graph.lt_opCount hop) op hop hisPhi b hb k hklt j hk p hp d hd)

theorem behaviour_sampleParam :
    ∃ g₀ s₀ g₁ s₁, sampleParam.eliminate false = .ok (g₀, s₀) ∧
      sampleParam.eliminate true = .ok (g₁, s₁) ∧ g₀.opCount = 10 ∧ g₁.opCount = 8 ∧
      ∀ (I : Interpretation Nat) values, Returns g₁ I values ↔ Returns g₀ I values := by
  have hcount : ∀ {forwardPhis n g' s'}, sampleParam.eliminate forwardPhis = .ok (g', s') →
      (sampleParam.eliminate forwardPhis).toOption.map (fun r ↦ r.1.opCount) = some n →
      g'.opCount = n := by
    intro forwardPhis n g' s' hresult hn
    rw [hresult] at hn
    exact Option.some.inj hn
  obtain ⟨g₀, s₀, g₁, s₁, hg₀, hg₁, hsame, -⟩ := behaviour_of_forwarding sampleParam_built
    (by decide +kernel) dominatedUses_sampleParam (by decide)
  exact ⟨g₀, s₀, g₁, s₁, hg₀, hg₁, hcount hg₀ (by decide +kernel), hcount hg₁ (by decide +kernel),
    fun I ↦ (hsame I).2.1⟩

end Execution

end Flowgraph
