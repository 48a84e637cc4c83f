import Flowgraph.Pipeline.Run
import Flowgraph.Proofs.Graph.Sound

/-!
# What a run finds

The stages of a run write a trace, progress reports and times as they go, and none of this has a say
in what they find. `findings` is what a run comes to, written without the journal, and
`findings_of_run` says that a run that is not called off comes to it whatever the trace, the file
and the level are.
-/

namespace Flowgraph.Pipeline

variable {α β γ δ : Type}

/-- What a run finds: its result, apart from the stages that it went through. -/
structure Findings where
  graph : Graph
  order : Option (List BlockIndex)
  loops : List LoopSummary
  stats : Stats

/-- What a result says about the graph. -/
def Result.findings (r : Result) : Findings := ⟨r.graph, r.order, r.loops, r.stats⟩

def check (failure : List Problem → Failure) : List Problem → Except Failure Unit
  | [] => .ok ()
  | ps => .error (failure ps)

/-- Has verification to look at the order of the blocks? Only if there is a pass that relies on it
and no stage before that brings it about. -/
def Settings.needsOrder (cfg : Settings) : Bool :=
  !cfg.specialRpo && (cfg.propagateDeferred || cfg.eliminateDeadCode)

/-- The graph after renumbering, with the order and the loops. -/
def ordering (cfg : Settings) (g : Graph) :
    Except Breach (Graph × Option (List BlockIndex) × List LoopSummary) :=
  if cfg.specialRpo then do
    let n ← g.numbering
    let g' ← g.reorder n.order
    return (g', if n.order.isEmpty then none else some n.order, Run.summarize n)
  else return (g, none, [])

/-- The graph that elimination is handed. -/
def deferring (cfg : Settings) (g : Graph) : Graph :=
  if cfg.propagateDeferred then g.propagateDeferred else g

/-- The graph after elimination, with the number of rewritten branches and whether there is no
call. -/
def reduction (cfg : Settings) (g : Graph) : Except Failure (Graph × Nat × Bool) := do
  let (out, s) ← (g.eliminate cfg.forwardPhis).mapError .breach
  if cfg.verify then check .invalidReduced (out.problems true)
  return (out, Run.rewrittenBranches g s, s.leaf)

/-- The graph at the end, with the same. -/
def eliminating (cfg : Settings) (g : Graph) : Except Failure (Graph × Nat × Bool) :=
  if cfg.eliminateDeadCode then reduction cfg g else return (g, 0, false)

/-- What a run comes to. -/
def findings (cfg : Settings) (g : Graph) : Except Failure Findings := do
  if cfg.verify then check .invalid (g.problems cfg.needsOrder)
  let (ordered, order, loops) ← (ordering cfg g).mapError .breach
  let deferred ← pure (deferring cfg ordered)
  let (out, rewritten, leaf) ← eliminating cfg deferred
  return {
    graph := out
    order, loops
    stats := {
      blocks := g.blockCount
      blocksOut := out.blockCount
      loops := loops.length
      maxLoopDepth := (loops.map LoopSummary.depth).foldl max 0
      deferred := out.deferredCount
      opsIn := g.opCount
      opsOut := out.opCount
      opsRemoved := (g.opCount : Int) - out.opCount
      branchesRewritten := rewritten
      leaf } }

/-- A step that comes first under a condition has gone through. -/
theorem of_when {ε : Type} {b : Bool} {m : Except ε PUnit} {f : PUnit → Except ε α} {y : α}
    (h : (if b then m >>= f else f ⟨⟩) = .ok y) : f ⟨⟩ = .ok y := by
  split at h
  · obtain ⟨_, -, h⟩ := exists_of_bind_ok h
    exact h
  · exact h

/-- A run that comes to findings went through its stages one after the other. -/
theorem exists_of_findings {cfg : Settings} {g : Graph} {x : Findings}
    (h : findings cfg g = .ok x) : ∃ ordered order loops rewritten leaf,
      ordering cfg g = .ok (ordered, order, loops) ∧
      eliminating cfg (deferring cfg ordered) = .ok (x.graph, rewritten, leaf) := by
  rw [findings] at h
  replace h := of_when h
  obtain ⟨⟨ordered, order, loops⟩, horder, h⟩ := exists_of_bind_ok h
  obtain ⟨_, ⟨⟩, h⟩ := exists_of_bind_ok h
  obtain ⟨⟨out, rewritten, leaf⟩, helim, h⟩ := exists_of_bind_ok h
  cases h
  exact ⟨ordered, order, loops, rewritten, leaf, mapError_eq_ok horder, helim⟩

/-! ## Steps that do not look at the journal

A step shows a result if it comes to the same result whatever the journal is. Sequences of such
steps do as well. -/

/-- Seen through `view`, the step `m` comes to `r` whatever the journal says. -/
def Run.Shows (m : Run α) (view : α → β) (r : Except Failure β) : Prop :=
  ∀ j, (m.run j).1.map view = r

namespace Run

variable {c : Context}

theorem shows_pure (a : α) (view : α → β) : Shows (pure a) view (.ok (view a)) := fun _ ↦ rfl

theorem shows_throw (f : Failure) (view : α → β) : Shows (throw f) view (.error f) := fun _ ↦ rfl

theorem shows_bind {m : Run α} {f : α → Run γ} {view : α → β} {view' : γ → δ}
    {r : Except Failure β} {k : β → Except Failure δ} (hm : Shows m view r)
    (hf : ∀ a, Shows (f a) view' (k (view a))) : Shows (m >>= f) view' (r >>= k) := by
  intro j
  have hbind : (m >>= f).run j = (ExceptT.bindCont f (m.run j).1) (m.run j).2 := rfl
  rw [hbind, ← hm j]
  rcases m.run j with ⟨_ | a, j'⟩
  · rfl
  · exact hf a j'

theorem shows_seq {m : Run α} {f : α → Run γ} {view : γ → δ} {r : Except Failure α}
    {k : α → Except Failure δ} (hm : Shows m id r) (hf : ∀ a, Shows (f a) view (k a)) :
    Shows (m >>= f) view (r >>= k) := shows_bind hm hf

/-- A change of the journal shows nothing. -/
theorem shows_modify {f : Journal → Journal} {k : PUnit → Run α} {view : α → β}
    {r : Except Failure β} (h : Shows (k ⟨⟩) view r) : Shows (modify f >>= k) view r :=
  fun j ↦ h (f j)

theorem shows_get {f : Journal → Run α} {view : α → β} {r : Except Failure β}
    (hf : ∀ j, Shows (f j) view r) : Shows (get >>= f) view r := fun j ↦ hf j j

/-- A stage comes to what its body comes to. -/
theorem shows_stage (hc : c.canceled = false) {s : Stage}
    {body : Nat → Run (Except Failure α × String)} {r : Except Failure (Except Failure α)}
    (hbody : ∀ span, Shows (body span) Prod.fst r) : Shows (stage c s body) id (r >>= id) := by
  simp only [stage, hc, Bool.false_eq_true, if_false]
  refine shows_modify (shows_get fun j ↦ ?_)
  refine fun j' ↦ shows_bind (hbody _) (fun x ↦ ?_) _
  refine shows_modify (shows_modify ?_)
  rcases x with ⟨f | a, note⟩
  · exact shows_modify (shows_throw f id)
  · exact shows_modify (shows_pure a id)

theorem shows_plainStage (hc : c.canceled = false) {s : Stage} {body : Nat → Run (α × String)}
    {r : Except Failure α} (hbody : ∀ span, Shows (body span) Prod.fst r) :
    Shows (plainStage c s body) id r := by
  have hstage : Shows (plainStage c s body) id ((r >>= fun a ↦ .ok (Except.ok a)) >>= id) :=
    shows_stage hc fun span ↦ shows_bind (hbody span) fun x ↦
      shows_pure (Except.ok x.1, x.2) Prod.fst
  cases r <;> exact hstage

/-! ## The stages

Each stage, without its reports, its times and its span, is a function of the settings and the
graph. -/

private theorem shows_verifyStage (hc : c.canceled = false) (g : Graph) (ordered : Bool) :
    Shows (verifyStage c g ordered) id (check .invalid (g.problems ordered)) := by
  have hstage : Shows (verifyStage c g ordered) id
      (.ok (check .invalid (g.problems ordered)) >>= id) := by
    refine shows_stage hc fun span ↦ ?_
    cases g.problems ordered with
    | nil => exact shows_pure _ Prod.fst
    | cons p ps => exact shows_pure _ Prod.fst
  exact hstage

private theorem shows_orderStage (hc : c.canceled = false) (hcfg : c.settings.specialRpo = true)
    (g : Graph) : Shows (orderStage c g) id ((ordering c.settings g).mapError .breach) := by
  refine shows_plainStage hc fun span j ↦ ?_
  rw [ordering, if_pos hcfg]
  cases g.numbering with
  | error b => rfl
  | ok n => cases hre : g.reorder n.order <;> simp only [ofExcept, pure_bind, hre, ok_bind] <;> rfl

private theorem shows_deferredStage (hc : c.canceled = false) (g : Graph) :
    Shows (deferredStage c g) id (.ok g.propagateDeferred) :=
  shows_plainStage hc fun _ ↦ shows_pure _ Prod.fst

private theorem shows_analyzeStage (hc : c.canceled = false) (g : Graph) :
    Shows (analyzeStage c g) id (g.liveness.mapError .breach) := by
  refine shows_plainStage hc fun span ↦ shows_modify ?_
  rw [Graph.liveness]
  rcases g.livenessOutcome with ⟨s, _ | b⟩
  · exact shows_pure _ Prod.fst
  · exact shows_throw _ Prod.fst

private theorem shows_reduceStage (hc : c.canceled = false) (g : Graph) (s : Liveness) :
    Shows (reduceStage c g s) id
      ((g.rebuild (Graph.eliminators s c.settings.forwardPhis)).mapError .breach) := by
  refine shows_plainStage hc fun span j ↦ ?_
  cases g.rebuild (Graph.eliminators s c.settings.forwardPhis) <;> rfl

private theorem shows_when {b : Bool} {m : Run PUnit} {f : PUnit → Run γ} {view : γ → δ}
    {r : Except Failure PUnit} {k : PUnit → Except Failure δ} (hm : b = true → Shows m id r)
    (hf : ∀ a, Shows (f a) view (k a)) :
    Shows (if b then m >>= f else f ⟨⟩) view (if b then r >>= k else k ⟨⟩) := by
  cases b with
  | true => exact shows_seq (hm rfl) hf
  | false => exact hf ⟨⟩

private theorem shows_choice {b : Bool} {m m' : Run α} {f : α → Run γ} {view : γ → δ}
    {r : Except Failure α} {k : α → Except Failure δ} (hm : b = true → Shows m id r)
    (hm' : b = false → Shows m' id r) (hf : ∀ a, Shows (f a) view (k a)) :
    Shows (if b then m >>= f else m' >>= f) view (r >>= k) := by
  cases b with
  | true => exact shows_seq (hm rfl) hf
  | false => exact shows_seq (hm' rfl) hf

private theorem shows_elimination (hc : c.canceled = false) (g : Graph) :
    Shows (elimination c g) id (reduction c.settings g) := by
  intro j
  have hshows : Shows (elimination c g) id
      (g.liveness.mapError .breach >>= fun s ↦
        (g.rebuild (Graph.eliminators s c.settings.forwardPhis)).mapError .breach >>= fun out ↦
          (do
            if c.settings.verify then check .invalidReduced (out.problems true)
            return (out, rewrittenBranches g s, s.leaf))) :=
    shows_seq (shows_analyzeStage hc g) fun s ↦ shows_seq (shows_reduceStage hc g s) fun out ↦ by
      cases c.settings.verify with
      | false => exact shows_pure _ id
      | true =>
        cases out.problems true with
        | nil => exact shows_pure _ id
        | cons p ps => exact shows_throw (.invalidReduced (p :: ps)) id
  refine (hshows j).trans ?_
  rw [reduction, Graph.eliminate]
  cases g.liveness with
  | error b => rfl
  | ok s => cases hre : g.rebuild (Graph.eliminators s c.settings.forwardPhis) <;>
    simp only [Except.mapError, ok_bind, hre] <;> rfl

end Run

/-- A run that is not called off comes to its findings. -/
theorem findings_of_run {c : Context} (hc : c.canceled = false) (recorder : Trace.Recorder)
    (g : Graph) : (run c recorder (some g)).1.map Result.findings = findings c.settings g := by
  refine (?_ : Run.Shows (Run.stages c g) Result.findings (findings c.settings g)) _
  unfold Run.stages findings
  refine Run.shows_when (fun _ ↦ Run.shows_verifyStage hc g _) fun _ ↦ ?_
  refine Run.shows_choice (fun hcfg ↦ Run.shows_orderStage hc hcfg g)
    (fun hcfg ↦ by rw [ordering, hcfg]; exact Run.shows_pure _ id) fun ⟨ordered, order, loops⟩ ↦ ?_
  refine Run.shows_choice
    (fun hcfg ↦ by rw [deferring, hcfg]; exact Run.shows_deferredStage hc ordered)
    (fun hcfg ↦ by rw [deferring, hcfg]; exact Run.shows_pure ordered id) fun deferred ↦ ?_
  refine Run.shows_choice
    (fun hcfg ↦ by rw [eliminating, hcfg]; exact Run.shows_elimination hc deferred)
    (fun hcfg ↦ by rw [eliminating, hcfg]; exact Run.shows_pure _ id)
    fun ⟨out, rewritten, leaf⟩ ↦ ?_
  exact Run.shows_get fun j ↦ Run.shows_pure _ Result.findings

theorem run_eq_error_iff {c : Context} (hc : c.canceled = false) (recorder : Trace.Recorder)
    {g : Graph} {f : Failure} :
    (run c recorder (some g)).1 = .error f ↔ findings c.settings g = .error f := by
  rw [← findings_of_run hc recorder g]
  cases (run c recorder (some g)).1 with
  | error e => simp [Except.map]
  | ok r => simp [Except.map]

theorem exists_run_iff {c : Context} (hc : c.canceled = false) (recorder : Trace.Recorder)
    {g : Graph} {x : Findings} :
    (∃ r, (run c recorder (some g)).1 = .ok r ∧ r.findings = x) ↔
      findings c.settings g = .ok x := by
  rw [← findings_of_run hc recorder g]
  cases (run c recorder (some g)).1 with
  | error e => simp [Except.map]
  | ok r => simp [Except.map]

end Flowgraph.Pipeline
