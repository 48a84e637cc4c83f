import Flowgraph.Proofs.Order.Deferral
import Flowgraph.Proofs.Pipeline.Findings
import Flowgraph.Proofs.Rebuild.DominatedUses
import Flowgraph.Proofs.Rebuild.Outcome

/-!
# Runs come to their end

Verification lets a run go on to the passes, and the passes break off where a graph is not what they
rely on. Renumbering and the marking of deferred blocks rely on nothing else than what was verified.
Elimination needs three things more: that the blocks are in reverse postorder, which renumbering
brings about for reducible graphs only, that values are defined before they are used, and that
nothing takes the value of an operation that was removed earlier.
-/

namespace Flowgraph

variable {g g' : Graph}

namespace Graph

private theorem Renamed.deadUnused {β : BlockIndex → BlockIndex} {ω : OpIndex → OpIndex}
    (h : Renamed g g' β ω) (hused : g.DeadUnused) (hvalues : ∀ {i : OpIndex} {op : Operation},
    g.ops[i]? = some op → ∀ j ∈ op.inputs, j < g.opCount) : g'.DeadUnused := by
  intro op' hmem j' hj' used' hused' hdead
  obtain ⟨i', hi'⟩ := Array.mem_iff_getElem?.mp (Array.mem_toList_iff.mp hmem)
  obtain ⟨i, op, hop, rfl, rfl⟩ := h.exists_op hi'
  obtain ⟨j, hj, rfl⟩ := List.mem_map.mp hj'
  obtain ⟨used, hjop, rfl⟩ := h.op_of_renamed (hvalues hop j hj) hused'
  refine hused op (Array.mem_toList_iff.mpr (Array.mem_of_getElem? hop)) j hj used hjop ?_
  obtain ⟨action, inputs⟩ := used
  cases action <;> first | rfl | cases hdead

private theorem Flagged.definedFirst (h : Flagged g g') (hdef : g.DefinedFirst) :
    g'.DefinedFirst := by
  rintro i hi op hop b hb blk' hblk' hphi j hj d hd
  obtain ⟨blk, hblk, hkind, -⟩ := h.block hblk'
  rw [h.ops_eq] at hop
  rw [h.alike.owners] at hb hd
  rw [Block.isLoop, hkind, ← Block.isLoop] at hphi
  exact hdef i (h.alike.opCount_eq ▸ hi) op hop b hb blk hblk hphi j hj d hd

private theorem Flagged.deadUnused (h : Flagged g g') (hused : g.DeadUnused) : g'.DeadUnused := by
  rw [DeadUnused, h.ops_eq]
  exact hused

private theorem inReversePostorder_of_numbering (hg : g.Sound) (hfit : g.Fit) (hred : g.Reducible)
    {num : Numbering} (hnum : g.numbering = .ok num) (hreorder : g.reorder num.order = .ok g')
    (hentry : num.order.idxOf 0 = 0) : g'.InReversePostorder := by
  have hr : Layout.Regular g := ⟨hg, hfit.reached, hred⟩
  have hno := no_arc_to_entry hg hfit.wellFormed
  rw [(reorder_renamed hg hreorder).inReversePostorder_iff hg hentry]
  intro u v harc
  constructor
  · intro hback
    rcases backward_of_numbering hr hno hnum hback with heq | hlt
    · exact Nat.le_of_eq (congrArg num.order.idxOf heq)
    · exact Nat.le_of_lt hlt
  · intro hle
    by_contra hback
    exact absurd (forward_of_numbering hr hno hnum ⟨harc, hback⟩) (Nat.not_lt.mpr hle)

end Graph

namespace Pipeline

/-- The graph that elimination is handed: renumbered and with its deferred blocks marked, as far as
the settings say so. -/
def prepared (cfg : Settings) (g : Graph) : Except Breach Graph := do
  let (ordered, _) ← ordering cfg g
  return deferring cfg ordered

theorem flagged_deferring (cfg : Settings) (g : Graph) : g.Flagged (deferring cfg g) := by
  rw [deferring]
  split
  · exact Graph.flagged_propagateDeferred g
  · exact .refl g

private theorem exists_ordering (hg : g.Sound) {cfg : Settings}
    (hfit : g.problems cfg.needsOrder = []) :
    ∃ ordered order loops β ω, ordering cfg g = .ok (ordered, order, loops) ∧
      g.Renamed ordered β ω ∧ β 0 = 0 ∧
      (cfg.eliminateDeadCode = true → cfg.specialRpo = false ∨ g.Reducible →
        ordered.InReversePostorder) := by
  obtain ⟨hf, hord⟩ := (Graph.problems_eq_nil hg _).mp hfit
  cases hcfg : cfg.specialRpo with
  | false =>
    refine ⟨g, none, [], id, id, by rw [ordering, hcfg]; rfl,
      Graph.renamed_self hg (Graph.bound_eq_none hg hf.wellFormed), rfl, fun helim _ ↦ hord ?_⟩
    simp [Settings.needsOrder, hcfg, helim]
  | true =>
    obtain ⟨num, g', hnum, hreorder, -, hentry⟩ := Graph.exists_reorder_specialOrder hg hf
    refine ⟨g', _, _, _, _,
      by rw [ordering, hcfg, if_pos rfl, hnum, ok_bind, hreorder, ok_bind]; rfl,
      Graph.reorder_renamed hg hreorder, hentry, fun _ hred ↦ ?_⟩
    exact Graph.inReversePostorder_of_numbering hg hf (hred.resolve_left (by simp)) hnum hreorder
      hentry

variable {c : Context}

private theorem run_of_refused (hc : c.canceled = false) (hverify : c.settings.verify = true)
    (recorder : Trace.Recorder) (hps : g.problems c.settings.needsOrder ≠ []) :
    (run c recorder (some g)).1 = .error (.invalid (g.problems c.settings.needsOrder)) := by
  have hcheck : check .invalid (g.problems c.settings.needsOrder) =
      .error (.invalid (g.problems c.settings.needsOrder)) := by
    cases hcase : g.problems c.settings.needsOrder with
    | nil => exact absurd hcase hps
    | cons p ps => rfl
  rw [run_eq_error_iff hc recorder, findings, hverify, if_pos rfl, hcheck]
  rfl

private theorem exists_run (hc : c.canceled = false) (recorder : Trace.Recorder)
    (hps : g.problems c.settings.needsOrder = []) {ordered : Graph}
    {order : Option (List BlockIndex)} {loops : List LoopSummary}
    (horder : ordering c.settings g = .ok (ordered, order, loops)) {x : Graph × Nat × Bool}
    (helim : eliminating c.settings (deferring c.settings ordered) = .ok x) :
    ∃ r, (run c recorder (some g)).1 = .ok r := by
  have hcheck : check .invalid (g.problems c.settings.needsOrder) = .ok () := by rw [hps]; rfl
  obtain ⟨f, hf⟩ : ∃ f, findings c.settings g = .ok f := by
    rw [findings, horder, hcheck]
    simp only [Except.mapError, ok_bind, pure_bind, helim, ite_self]
    exact ⟨_, rfl⟩
  obtain ⟨r, hr, -⟩ := (exists_run_iff hc recorder).mpr hf
  exact ⟨r, hr⟩

private theorem exists_eliminating {h : Graph} (hh : h.Sound) {cfg : Settings}
    (helim : cfg.eliminateDeadCode = false ∨
      h.problems true = [] ∧ h.DefinedFirst ∧ h.DeadUnused) : ∃ x, eliminating cfg h = .ok x := by
  cases hcfg : cfg.eliminateDeadCode with
  | false => exact ⟨_, by rw [eliminating, hcfg]; rfl⟩
  | true =>
    obtain ⟨hps, hdef, hused⟩ := helim.resolve_left (by simp [hcfg])
    obtain ⟨hfit, hord⟩ := (Graph.problems_eq_nil hh true).mp hps
    obtain ⟨out, s, helim, hout⟩ :=
      exists_eliminate hh hfit (hord rfl) hdef hused cfg.forwardPhis
    have hcheck : check .invalidReduced (out.problems true) = .ok () := by rw [hout]; rfl
    refine ⟨(out, Run.rewrittenBranches h s, s.leaf), ?_⟩
    rw [eliminating, hcfg, if_pos rfl, reduction, helim]
    simp only [Except.mapError, ok_bind, hcheck, ite_self]
    rfl

/-- A run with verification refuses a graph that has problems. A graph that has none is renumbered
and marked; the run comes to a result if nothing is eliminated or if the graph at this point is in
order and defines what it uses, and so it does if the graph is reducible or need not be renumbered,
its definitions dominate their uses and removed operations are unused. -/
theorem run_of_verified {g : Graph} (hbuilt : g.Built) {c : Context} (hc : c.canceled = false)
    (hverify : c.settings.verify = true) (recorder : Trace.Recorder) :
    (g.problems c.settings.needsOrder ≠ [] →
      (run c recorder (some g)).1 = .error (.invalid (g.problems c.settings.needsOrder))) ∧
    (g.problems c.settings.needsOrder = [] → ∃ h, prepared c.settings g = .ok h ∧
      h.problems false = [] ∧
      (c.settings.eliminateDeadCode = false ∨
          h.problems true = [] ∧ h.DefinedFirst ∧ h.DeadUnused →
        ∃ r, (run c recorder (some g)).1 = .ok r) ∧
      (c.settings.specialRpo = false ∨ g.Reducible → g.DominatedUses → g.DeadUnused →
        ∃ r, (run c recorder (some g)).1 = .ok r)) := by
  refine ⟨run_of_refused hc hverify recorder, fun hps ↦ ?_⟩
  have hg := hbuilt.sound
  obtain ⟨hfit, -⟩ := (Graph.problems_eq_nil hg _).mp hps
  obtain ⟨ordered, order, loops, β, ω, horder, hren, hentry, hrpo⟩ := exists_ordering hg hps
  have hflag := flagged_deferring c.settings ordered
  have hh := hflag.alike.sound (hren.sound hg)
  have hhfit := hflag.fit (hren.fit hg hentry hfit)
  have hrun := fun helim ↦ (exists_eliminating hh helim).elim fun _ hx ↦
    exists_run hc recorder hps horder hx
  refine ⟨deferring c.settings ordered, by rw [prepared, horder]; rfl,
    (Graph.problems_eq_nil hh false).mpr ⟨hhfit, nofun⟩, hrun, fun hred huses hused ↦ hrun ?_⟩
  cases helim : c.settings.eliminateDeadCode with
  | false => exact Or.inl rfl
  | true =>
    have hord := hrpo helim hred
    refine Or.inr ⟨(Graph.problems_eq_nil hh true).mpr
      ⟨hhfit, fun _ ↦ hflag.alike.inReversePostorder hord⟩, ?_, ?_⟩
    · exact hflag.definedFirst (hren.definedFirst hg hentry hfit hord huses)
    · exact hflag.deadUnused (hren.deadUnused hused fun hop ↦
        (hfit.wellFormed.referring hop).value_lt)

/-- A block that repeats itself, with a value that goes around. -/
def spinBlocks : List (BlockKind × List Operation) :=
  [(.entry, [.pure .empty [], .goto 1]),
    (.loop, [⟨.phi .word32, [0, 2]⟩, .branch 2 1 2 .unhinted]),
    (.plain, [.ret [2]])]

/-- The graph of a block that repeats itself. -/
def sampleSpin : Graph := (Graph.ofBlocks spinBlocks).toOption.getD (.empty .empty)

theorem sampleSpin_built : sampleSpin.Built :=
  Graph.ofBlocks_built (show Graph.ofBlocks spinBlocks = _ from rfl)

private theorem dominatedUses_sampleSpin : sampleSpin.DominatedUses := by
  have hsound := sampleSpin_built.sound
  have hexit : sampleSpin.Dominates 1 2 := by
    have hall : ∀ p < sampleSpin.blockCount, 2 ∈ sampleSpin.successors p → p = 1 := by
      decide
    exact Graph.dominates_of_arc (by decide) fun p hp ↦ hall p (hsound.arc_lt hp).1 hp
  have hplain : ∀ i < sampleSpin.opCount, ∀ op ∈ sampleSpin.ops[i]?, op.isPhi = false →
      ∀ b ∈ sampleSpin.owners[i]?, ∀ j ∈ op.inputs, ∀ d ∈ sampleSpin.owners[j]?,
        d = b ∧ j < i ∨ d = 1 ∧ b = 2 := by decide
  have hphi : ∀ i < sampleSpin.opCount, ∀ op ∈ sampleSpin.ops[i]?, op.isPhi = true →
      ∀ b ∈ sampleSpin.owners[i]?, ∀ k < op.inputs.length, ∀ j ∈ op.inputs[k]?,
        ∀ p ∈ (sampleSpin.predecessors b)[k]?, ∀ d ∈ sampleSpin.owners[j]?, d = p := by
    decide
  refine ⟨fun {i j op b d} hop hnot hb hj hd ↦ ?_, fun {i j op b p d k} hop hisPhi hb hk hp hd ↦ ?_⟩
  · rcases hplain i (Graph.lt_opCount hop) op hop hnot b hb j hj d hd with ⟨rfl, hlt⟩ | ⟨rfl, rfl⟩
    · exact ⟨Graph.dominates_self d, fun _ ↦ hlt⟩
    · exact ⟨hexit, nofun⟩
  · have hklt := (List.getElem?_eq_some_iff.mp hk).1
    rw [hphi i (Graph.lt_opCount hop) op hop hisPhi b hb k hklt j hk p hp d hd]
    exact Graph.dominates_self p

/-- What a run by default is surrounded by. -/
def Context.plain : Context := ⟨.default, "", .off, 0, false⟩

theorem run_of_verified_sampleSpin : ∃ r, (run .plain .start (some sampleSpin)).1 = .ok r := by
  have hred : sampleSpin.Reducible := by
    have hback : sampleSpin.backedges = [⟨1, 1⟩] := by decide
    intro e he
    rw [hback, List.mem_singleton] at he
    rw [he]
    exact Graph.dominates_self 1
  obtain ⟨-, haccepted⟩ := run_of_verified (c := .plain) sampleSpin_built rfl rfl .start
  obtain ⟨h, -, -, -, hrun⟩ := haccepted (by decide)
  exact hrun (Or.inr hred) dominatedUses_sampleSpin (by decide)

/-- An operation that uses what comes after it. -/
def earlyUseBlocks : List (BlockKind × List Operation) :=
  [(.entry, [⟨.other .empty true, [1]⟩, .pure .empty [], .ret []])]

/-- An operation that uses what was removed earlier. -/
def deadUseBlocks : List (BlockKind × List Operation) :=
  [(.entry, [.dead, .pure .empty [0], .ret [1]])]

/-- Verification accepts graphs that break off in the analysis or in rebuilding. -/
theorem accepted_breaches :
    (∃ g : Graph, Graph.ofBlocks earlyUseBlocks = .ok g ∧ g.problems true = [] ∧
      (run .plain .start (some g)).1 = .error (.breach (.inputNotEmitted 1))) ∧
    ∃ g : Graph, Graph.ofBlocks deadUseBlocks = .ok g ∧ g.problems true = [] ∧
      (run .plain .start (some g)).1 = .error (.breach (.removedStillUsed 0 0)) := by
  have hfails : ∀ {g : Graph} {f : Failure}, (findings .default g).map (fun _ ↦ ()) = .error f →
      (run .plain .start (some g)).1 = .error f := by
    intro g f h
    refine (run_eq_error_iff rfl .start).mpr (?_ : findings .default g = .error f)
    cases hfind : findings .default g with
    | error e =>
      rw [hfind] at h
      cases h
      rfl
    | ok x =>
      rw [hfind] at h
      cases h
  exact ⟨⟨_, rfl, by decide, hfails (by decide +kernel)⟩,
    ⟨_, rfl, by decide, hfails (by decide +kernel)⟩⟩

end Pipeline

end Flowgraph
