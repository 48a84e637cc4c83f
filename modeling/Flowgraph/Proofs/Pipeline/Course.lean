import Flowgraph.Pipeline.Run
import Flowgraph.Proofs.Trace.Spans

/-!
# The course of a run

Whatever the stages of a run compute, there are only four ways in which a stage can go: the run is
called off before it, it breaks a precondition, it refuses the graph, or it passes. `StageCourse`
has one case for each, with all that the stage leaves in the journal, and `Course` puts stages
together to a run. `course_of_run` says that every run takes such a course, also one that is called
off on its way. What a run leaves behind can then be read off by induction on its course: its
reports (`Course.exists_reports`) and its spans (`Course.spans`).

A breach is the only case in which a span stays open. The stage that breaks off is the last one.
-/

namespace Flowgraph.Pipeline

open Trace (Recorder)

variable {α β : Type} {c : Context} {calledOff : Stage → Bool} {s : Stage} {j j₁ j' : Journal}
  {f? : Option Failure} {f : Failure}

/-- How a stage can go, and the journal after it. -/
inductive StageCourse (c : Context) (s : Stage) (j : Journal) : Option Failure → Journal → Prop
  | calledOff : StageCourse c s j (some .canceled) j
  | broken {r : Recorder} (b : Breach)
    (points : (j.recorder.begin c.level .pass s.text c.parent).1.Pointed r) :
    StageCourse c s j (some (.breach b))
      ⟨r, j.events.push ⟨c.file, s, .working, none⟩, j.timed⟩
  | refused {r : Recorder} (ps : List Problem) (note : String)
    (points : (j.recorder.begin c.level .pass s.text c.parent).1.Pointed r) :
    StageCourse c s j (some (.invalid ps))
      ⟨r.finish (j.recorder.begin c.level .pass s.text c.parent).2 note,
        (j.events.push ⟨c.file, s, .working, none⟩).push
          ⟨c.file, s, .error, (Failure.invalid ps).message?⟩, j.timed.push s⟩
  | passed {r : Recorder} (note : String)
    (points : (j.recorder.begin c.level .pass s.text c.parent).1.Pointed r) :
    StageCourse c s j none
      ⟨r.finish (j.recorder.begin c.level .pass s.text c.parent).2 note,
        (j.events.push ⟨c.file, s, .working, none⟩).push ⟨c.file, s, .done, none⟩,
        j.timed.push s⟩

/-- How a run can go from a journal to another one, and the failure that it ends with, if any. -/
inductive Course (c : Context) : Journal → Option Failure → Journal → Prop
  | rest (j : Journal) : Course c j none j
  /-- The check of the rebuilt graph belongs to no stage. -/
  | refused (j : Journal) (ps : List Problem) : Course c j (some (.invalidReduced ps)) j
  | halted {s : Stage} {j j' : Journal} {f : Failure} (hs : s ≠ .write)
    (last : StageCourse c s j (some f) j') : Course c j (some f) j'
  | onward {s : Stage} {j j₁ j' : Journal} {f? : Option Failure} (hs : s ≠ .write)
    (first : StageCourse c s j none j₁) (rest : Course c j₁ f? j') : Course c j f? j'

private theorem Course.append (h : Course c j none j₁) (h' : Course c j₁ f? j') :
    Course c j f? j' := by
  generalize hnone : (none : Option Failure) = f₁ at h
  induction h with
  | rest => exact h'
  | refused => cases hnone
  | halted => cases hnone
  | onward hs first _ ih => exact .onward hs first (ih h' hnone)

/-! ## Every run takes a course

By the rules for putting steps together. A stage that breaks off or refuses the graph ends the
course, and so does calling off. -/

/-- The failure that a step ended with. -/
def failure? : Except Failure α → Option Failure
  | .ok _ => none
  | .error f => some f

namespace Run

/-- From every journal the step takes a course. -/
def Takes (c : Context) (m : Run α) : Prop := ∀ j, Course c j (failure? (m.run j).1) (m.run j).2

/-- The body of a stage breaks off by a breach only, and refuses the graph for its problems only. -/
def Expected : Except Failure (Except Failure α × String) → Prop
  | .error f => ∃ b, f = .breach b
  | .ok (.error f, _) => ∃ ps, f = .invalid ps
  | .ok (.ok _, _) => True

/-- A step comes to something with `P` and adds points to the trace, and nothing else to the
journal. -/
def Works (P : Except Failure α → Prop) (m : Run α) : Prop :=
  ∀ j, P (m.run j).1 ∧ ∃ r, j.recorder.Pointed r ∧ (m.run j).2 = { j with recorder := r }

private theorem takes_pure (a : α) : Takes c (pure a) := fun j ↦ .rest j

theorem takes_bind {m : Run α} {g : α → Run β} (hm : Takes c m) (hg : ∀ a, Takes c (g a)) :
    Takes c (m >>= g) := by
  intro j
  have hbind : (m >>= g).run j = (ExceptT.bindCont g (m.run j).1) (m.run j).2 := rfl
  have hfirst := hm j
  rw [hbind]
  generalize m.run j = x at hfirst ⊢
  rcases x with ⟨f | a, j₁⟩
  · exact hfirst
  · exact hfirst.append (hg a j₁)

private theorem takes_when {b : Bool} {m : Run PUnit} {g : PUnit → Run β} (hm : Takes c m)
    (hg : ∀ a, Takes c (g a)) : Takes c (if b then m >>= g else g ⟨⟩) := by
  cases b with
  | true => exact takes_bind hm hg
  | false => exact hg ⟨⟩

private theorem takes_choice {b : Bool} {m : Run α} {a : α} {g : α → Run β} (hm : Takes c m)
    (hg : ∀ a, Takes c (g a)) : Takes c (if b then m >>= g else pure a >>= g) := by
  cases b with
  | true => exact takes_bind hm hg
  | false => exact hg a

theorem takes_stage (hs : s ≠ .write) {body : Nat → Run (Except Failure α × String)}
    (hbody : ∀ span, Works Expected (body span)) :
    Takes c (stage (c.before calledOff s) s body) := by
  intro j
  cases hc : calledOff s with
  | true =>
    have hrun : (stage (c.before calledOff s) s body).run j = (.error .canceled, j) := by
      simp only [stage, Context.before, hc, if_true]
      rfl
    rw [hrun]
    exact .halted hs .calledOff
  | false =>
    let begin := j.recorder.begin c.level .pass s.text c.parent
    obtain ⟨hexpected, r, hpoints, hj⟩ := hbody begin.2.id
      ⟨begin.1, j.events.push ⟨c.file, s, .working, none⟩, j.timed⟩
    -- what follows the body is not reached if the body throws
    have hrun : (stage (c.before calledOff s) s body).run j
        = ExceptT.bindCont (fun x ↦ (do
            record (·.finish begin.2 x.2)
            modify fun j ↦ { j with timed := j.timed.push s }
            match x.1 with
            | .ok a => report c s .done none; return a
            | .error f => report c s .error f.message?; throw f : Run α))
          ((body begin.2.id).run ⟨begin.1, j.events.push ⟨c.file, s, .working, none⟩, j.timed⟩).1
          ((body begin.2.id).run
            ⟨begin.1, j.events.push ⟨c.file, s, .working, none⟩, j.timed⟩).2 := by
      simp only [stage, Context.before, hc, Bool.false_eq_true, if_false]
      rfl
    rw [hrun, hj]
    generalize ((body begin.2.id).run _).1 = x at hexpected ⊢
    rcases x with f | ⟨f | a, note⟩
    · obtain ⟨b, rfl⟩ := hexpected
      exact .halted hs (.broken b hpoints)
    · obtain ⟨ps, rfl⟩ := hexpected
      exact .halted hs (.refused ps note hpoints)
    · exact .onward hs (.passed note hpoints) (.rest _)

/-- A step that finds no failure of its own can only break off by a breach. -/
def OnlyBreaches : Except Failure α → Prop
  | .error f => ∃ b, f = .breach b
  | .ok _ => True

theorem works_pure {P : Except Failure α → Prop} {a : α} (h : P (.ok a)) : Works P (pure a) :=
  fun j ↦ ⟨h, j.recorder, .refl, rfl⟩

theorem works_bind {P : Except Failure β → Prop} {m : Run α} {g : α → Run β}
    (hm : Works OnlyBreaches m) (hthrow : ∀ b, P (.error (.breach b))) (hg : ∀ a, Works P (g a)) :
    Works P (m >>= g) := by
  intro j
  have hbind : (m >>= g).run j = (ExceptT.bindCont g (m.run j).1) (m.run j).2 := rfl
  obtain ⟨hfirst, r, hpoints, hj⟩ := hm j
  rw [hbind, hj]
  generalize (m.run j).1 = x at hfirst ⊢
  rcases x with f | a
  · obtain ⟨b, rfl⟩ := hfirst
    exact ⟨hthrow b, r, hpoints, rfl⟩
  · obtain ⟨hP, r', hpoints', hj'⟩ := hg a { j with recorder := r }
    exact ⟨hP, r', hpoints.trans hpoints', hj'⟩

theorem works_ofExcept (x : Except Breach α) : Works OnlyBreaches (ofExcept x) := by
  intro j
  refine ⟨?_, j.recorder, .refl, by cases x <;> rfl⟩
  cases x with
  | error b => exact ⟨b, rfl⟩
  | ok a => trivial

theorem takes_plainStage (hs : s ≠ .write) {body : Nat → Run (α × String)}
    (hbody : ∀ span, Works OnlyBreaches (body span)) :
    Takes c (plainStage (c.before calledOff s) s body) :=
  takes_stage hs fun span ↦
    works_bind (hbody span) (fun b ↦ ⟨b, rfl⟩) fun _ ↦ works_pure trivial

private theorem takes_verifyStage (g : Graph) (ordered : Bool) :
    Takes c (verifyStage (c.before calledOff .verify) g ordered) := by
  refine takes_stage (by decide) fun span ↦ ?_
  cases g.problems ordered with
  | nil => exact works_pure trivial
  | cons p ps => exact works_pure ⟨p :: ps, rfl⟩

private theorem takes_orderStage (g : Graph) : Takes c (orderStage (c.before calledOff .order) g) :=
  takes_plainStage (by decide) fun _ ↦
    works_bind (works_ofExcept _) (fun b ↦ ⟨b, rfl⟩) fun _ ↦
      works_bind (works_ofExcept _) (fun b ↦ ⟨b, rfl⟩) fun _ ↦ works_pure trivial

private theorem takes_deferredStage (g : Graph) :
    Takes c (deferredStage (c.before calledOff .deferred) g) :=
  takes_plainStage (by decide) fun _ ↦ works_pure trivial

private theorem works_recordWalk (c : Context) (span : Nat) (walked : List (BlockIndex × Control)) :
    Works OnlyBreaches (recordWalk c span walked) := by
  intro j
  refine ⟨trivial, _, ?_, rfl⟩
  exact List.foldlRecOn walked.reverse _ .refl fun _ h _ _ ↦ .point _ _ _ _ _ h

private theorem takes_analyzeStage (g : Graph) :
    Takes c (analyzeStage (c.before calledOff .analyze) g) := by
  refine takes_plainStage (by decide) fun span ↦
    works_bind (works_recordWalk _ span _) (fun b ↦ ⟨b, rfl⟩) fun _ ↦ ?_
  cases g.livenessOutcome.breach? with
  | some b => exact fun j ↦ ⟨⟨b, rfl⟩, j.recorder, .refl, rfl⟩
  | none => exact works_pure trivial

private theorem takes_reduceStage (g : Graph) (x : Liveness) :
    Takes c (reduceStage (c.before calledOff .reduce) g x) :=
  takes_plainStage (by decide) fun _ ↦
    works_bind (works_ofExcept _) (fun b ↦ ⟨b, rfl⟩) fun _ ↦ works_pure trivial

private theorem takes_eliminationUnless (g : Graph) :
    Takes c (eliminationUnless calledOff c g) := by
  refine takes_bind (takes_analyzeStage g) fun x ↦ takes_bind (takes_reduceStage g x) fun out ↦ ?_
  cases c.settings.verify with
  | false => exact takes_pure _
  | true =>
    cases out.problems true with
    | nil => exact takes_pure _
    | cons p ps => exact fun j ↦ .refused j (p :: ps)

private theorem takes_stagesUnless (g : Graph) : Takes c (stagesUnless calledOff c g) := by
  unfold stagesUnless
  exact takes_when (takes_verifyStage g _) fun _ ↦
    takes_choice (takes_orderStage g) fun ⟨ordered, _, _⟩ ↦
      takes_choice (takes_deferredStage ordered) fun deferred ↦
        takes_choice (takes_eliminationUnless deferred) fun _ ↦ fun j ↦ .rest j

end Run

/-- Every run takes a course. -/
theorem course_of_run (calledOff : Stage → Bool) (c : Context) (recorder : Recorder) (g : Graph) :
    Course c ⟨recorder, #[], #[]⟩ (failure? (runUnless calledOff c recorder (some g)).1)
      (runUnless calledOff c recorder (some g)).2 :=
  Run.takes_stagesUnless g _

/-! ## Reports

A stage reports that it works and that it is done, or that it failed. So all reports of a run are
quiet but for the last one of a failed run, if the stage that failed reports its failures. -/

/-- No report on a file follows an error or the end of writing. -/
def Event.closes (e : Event) : Bool := e.status = .error || (e.stage = .write && e.status = .done)

/-- Reports on one file, of which none closes it and none says that its result was stored. -/
def Quiet (file : String) (es : List Event) : Prop :=
  ∀ e ∈ es, e.file = file ∧ e.closes = false ∧ e.status ≠ .cached

/-- Reports on one file that end with an error, and with nothing else that closes it. -/
def Fails (file : String) (es : List Event) : Prop :=
  ∃ init last, es = init ++ [last] ∧ Quiet file init ∧ last.file = file ∧ last.status = .error

variable {file : String} {es es' : List Event} {e : Event}

theorem quiet_nil (file : String) : Quiet file [] := fun _ he ↦ absurd he List.not_mem_nil

theorem Quiet.append (h : Quiet file es) (h' : Quiet file es') : Quiet file (es ++ es') :=
  List.forall_mem_append.mpr ⟨h, h'⟩

theorem quiet_singleton (hfile : e.file = file) (hclose : e.closes = false)
    (hstatus : e.status ≠ .cached) : Quiet file [e] := by
  intro e' he'
  rw [List.mem_singleton.mp he']
  exact ⟨hfile, hclose, hstatus⟩

private theorem Quiet.fails (h : Quiet file es) (h' : Fails file es') : Fails file (es ++ es') := by
  obtain ⟨init, last, rfl, hinit, hlast⟩ := h'
  exact ⟨es ++ init, last, (List.append_assoc ..).symm, h.append hinit, hlast⟩

theorem quiet_working (file : String) (s : Stage) : Quiet file [⟨file, s, .working, none⟩] :=
  quiet_singleton rfl (by simp [Event.closes]) (by simp)

private theorem StageCourse.exists_reports (hs : s ≠ .write) (h : StageCourse c s j f? j') :
    ∃ es, j'.events.toList = j.events.toList ++ es ∧
      (Quiet c.file es ∨ f? ≠ none ∧ Fails c.file es) := by
  cases h with
  | calledOff => exact ⟨[], (List.append_nil _).symm, Or.inl (quiet_nil _)⟩
  | broken b => exact ⟨_, Array.toList_push, Or.inl (quiet_working c.file s)⟩
  | refused ps note =>
    exact ⟨[⟨c.file, s, .working, none⟩, ⟨c.file, s, .error, (Failure.invalid ps).message?⟩],
      by simp, Or.inr ⟨Option.some_ne_none _, [_], _, rfl, quiet_working c.file s, rfl, rfl⟩⟩
  | passed note =>
    have hdone : Quiet c.file [⟨c.file, s, .done, none⟩] :=
      quiet_singleton rfl (by simp [Event.closes, hs]) (by simp)
    exact ⟨[⟨c.file, s, .working, none⟩, ⟨c.file, s, .done, none⟩], by simp,
      Or.inl ((quiet_working c.file s).append hdone)⟩

/-- A run that comes to a result reports quietly. Another one reports quietly or with an error at
the end. -/
theorem Course.exists_reports (h : Course c j f? j') :
    ∃ es, j'.events.toList = j.events.toList ++ es ∧
      (Quiet c.file es ∨ f? ≠ none ∧ Fails c.file es) := by
  induction h with
  | rest j => exact ⟨[], (List.append_nil _).symm, Or.inl (quiet_nil _)⟩
  | refused j ps => exact ⟨[], (List.append_nil _).symm, Or.inl (quiet_nil _)⟩
  | halted hs last => exact last.exists_reports hs
  | onward hs first _ ih =>
    obtain ⟨es, hes, hquiet⟩ := first.exists_reports hs
    replace hquiet := hquiet.resolve_right fun h ↦ h.1 rfl
    obtain ⟨es', hes', hrest⟩ := ih
    exact ⟨es ++ es', by rw [hes', hes, List.append_assoc],
      hrest.imp hquiet.append (And.imp_right hquiet.fails)⟩

/-! ## Spans

A stage begins and ends its span, and what it records inside is nested. Only a breach leaves the
span open. -/

/-- Did a precondition break? -/
def Failure.isBreach : Failure → Bool
  | .breach _ => true
  | _ => false

/-- What a run does to the spans: it leaves the span of a stage open if this stage breaks a
precondition, and otherwise ends all that it begins. -/
structure Spans (c : Context) (r : Recorder) (f? : Option Failure) (r' : Recorder) : Prop where
  nests : (f?.any Failure.isBreach && c.level.showsStages) = false →
    ∃ es, r.Nests c.parent r' es ∧ (c.level.showsStages = false → Trace.begun es = [])
  leaves : (f?.any Failure.isBreach && c.level.showsStages) = true →
    ∃ es x, r.Leaves c.parent r' es x ∧ x.scope = .pass ∧ ∃ s : Stage, x.name = s.text

theorem spans_of_nests {r r' : Recorder} {es : List Trace.Event}
    (hf : f?.any Failure.isBreach = false) (h : r.Nests c.parent r' es)
    (hnone : c.level.showsStages = false → Trace.begun es = []) :
    Spans c r f? r' where
  nests _ := ⟨es, h, hnone⟩
  leaves hb := by simp [hf] at hb

private theorem StageCourse.spans (hsane : j.recorder.Sane) (h : StageCourse c s j f? j') :
    Spans c j.recorder f? j'.recorder := by
  have hcases := j.recorder.begin_cases c.level .pass s.text c.parent
  have hpassed : ∀ {r : Recorder} {f? : Option Failure} (note : String),
      (j.recorder.begin c.level .pass s.text c.parent).1.Pointed r →
      f?.any Failure.isBreach = false →
      Spans c j.recorder f? (r.finish (j.recorder.begin c.level .pass s.text c.parent).2 note) := by
    intro r f? note hpoints hf
    rcases hcases with ⟨hshows, b, hb⟩ | ⟨hshows, hnone⟩
    · obtain ⟨es, hes, -⟩ := hpoints.nests (j.recorder.begin c.level .pass s.text c.parent).2.id
      obtain ⟨es', hes'⟩ := hb.nests hsane hes note
      exact spans_of_nests hf hes' fun h ↦ absurd (hshows.symm.trans h) (by decide)
    · rw [hnone] at hpoints ⊢
      obtain ⟨es, hes, hempty⟩ := hpoints.nests c.parent
      exact spans_of_nests hf hes fun _ ↦ hempty
  cases h with
  | calledOff => exact spans_of_nests rfl (.refl _ _) fun _ ↦ rfl
  | refused ps note hpoints => exact hpassed note hpoints rfl
  | passed note hpoints => exact hpassed note hpoints rfl
  | broken b hpoints =>
    rcases hcases with ⟨hshows, b', hb⟩ | ⟨hshows, hnone⟩
    · obtain ⟨es, hes, hempty⟩ :=
        hpoints.nests (j.recorder.begin c.level .pass s.text c.parent).2.id
      refine ⟨fun h ↦ ?_, fun _ ↦ ⟨_, _, hb.leaves hes hempty, hb.scope_eq, s, hb.name_eq⟩⟩
      exact absurd (h.symm.trans hshows) (by decide)
    · rw [hnone] at hpoints
      obtain ⟨es, hes, hempty⟩ := hpoints.nests c.parent
      refine ⟨fun _ ↦ ⟨es, hes, fun _ ↦ hempty⟩, fun h ↦ ?_⟩
      exact absurd (h.symm.trans hshows) (by decide)

theorem Course.spans (hsane : j.recorder.Sane) (h : Course c j f? j') :
    Spans c j.recorder f? j'.recorder := by
  induction h with
  | rest j => exact spans_of_nests rfl (.refl _ _) fun _ ↦ rfl
  | refused j ps => exact spans_of_nests rfl (.refl _ _) fun _ ↦ rfl
  | halted hs last => exact last.spans hsane
  | onward hs first _ ih =>
    obtain ⟨es, hes, hnone⟩ := (first.spans hsane).nests rfl
    have hrest := ih (hes.sane hsane)
    refine ⟨fun hf ↦ ?_, fun hf ↦ ?_⟩
    · obtain ⟨es', hes', hnone'⟩ := hrest.nests hf
      exact ⟨es ++ es', hes.trans hes', fun h ↦ by
        rw [Trace.begun_append, hnone h, hnone' h, List.append_nil]⟩
    · obtain ⟨es', x, hx, hscope⟩ := hrest.leaves hf
      exact ⟨es ++ es', x, hes.leaves hx, hscope⟩

end Flowgraph.Pipeline
