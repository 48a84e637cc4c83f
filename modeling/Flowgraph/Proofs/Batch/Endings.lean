import Flowgraph.Proofs.Batch.Outputs
import Flowgraph.Proofs.Pipeline.Course

/-!
# How workers end

However a worker ends, and whatever goes on around it, two things can be told from its end.

## The result

A file that fails before its output is written has no result, and a file that succeeds has one
(`result_eq_none_iff`). If only the writing of the output fails, the outcome has both a failure and
a result (`exists_result_of_failure`).

## The closing report

A worker sends one report that closes its file, and sends it last; it is an error if and only if the
file failed (`exists_closing_report`). The error is sent by the pipeline or by the worker itself.
What keeps them apart is the flag `Worker.failed`: it is not set while the worker is at work, and
when a run of the pipeline is taken over it is set if and only if the run has reported an error.
-/

namespace Flowgraph.Batch

open Pipeline (Stage Status Event Quiet Fails)

variable {q : Request} {calledOff : Stage → Bool} {k : Worker} {w : World} {x : Worker × World}
  {o : Outcome}

/-! ## Results

Whether an outcome has a result is settled when the worker ends, in one of three ways: with the
result, with a failure before there is one, or with the result and a failure of the output. No step
changes an outcome, and a worker that was hired has none yet. -/

/-- A result is missing if and only if the file failed before its output was written. -/
def Outcome.Settled (o : Outcome) : Prop :=
  o.result? = none ↔ ∃ f, o.failure? = some f ∧ f.isOfOutput = false

private theorem Outcome.Settled.of_result {path output : String} {r : Pipeline.Result}
    {cached : Bool} {f? : Option Failure} (h : ∀ f ∈ f?, f.isOfOutput = true) :
    Settled ⟨path, some r, output, cached, f?⟩ := by
  refine iff_of_false (Option.some_ne_none r) ?_
  rintro ⟨f, rfl, hf⟩
  cases (h f rfl).symm.trans hf

theorem Outcome.Settled.of_failure {path output : String} {cached : Bool} {f : Failure}
    (h : f.isOfOutput = false) : Settled ⟨path, none, output, cached, some f⟩ :=
  iff_of_true rfl ⟨f, rfl, h⟩

private theorem Deed.settled (hd : Deed q calledOff k w x) (h : ∀ o, k.phase = .ended o → o.Settled)
    (hx : x.1.phase = .ended o) : o.Settled := by
  cases hd with
  | started | loaded | found | missed | stored | opened => cases hx
  | unloaded phase e =>
    cases (Worker.fail_end ..).symm.trans hx
    exact .of_failure rfl
  | @ran g key? phase =>
    rcases k.runUnless_phase calledOff q w g key? with ⟨r, hr⟩ | ⟨f, hf⟩
    · cases hr.symm.trans hx
    · cases hf.symm.trans hx
      exact .of_failure rfl
  | written phase t output =>
    cases hx
    exact .of_result fun _ hf ↦ absurd hf (Option.not_mem_none _)
  | unopened phase t kind =>
    cases (Worker.fail_end ..).symm.trans hx
    refine .of_result fun f' hf' ↦ ?_
    cases hf'
    exact kind
  | idle phase => exact h o hx

private theorem Shop.settled_takes {s : Shop} (hs : ∀ h ∈ s.hands, ∃ q path, h = ⟨q, .fresh path⟩)
    {turns : List Turn} {i : Nat} (ho : (s.takes turns).outcome? i = some o) : o.Settled := by
  obtain ⟨h, hi, hend⟩ := outcome?_eq_some.mp ho
  refine along (fun _ ↦ ([] : List Unit))
    (P := fun h _ ↦ ∀ o, h.worker.phase = .ended o → o.Settled) ?_ ?_ ?_ turns hi o hend
  · rintro q path o ⟨⟩
  · exact fun h calledOff w _ hP ↦
      ⟨[], rfl, fun o hx ↦ (h.worker.deed_of_step h.request calledOff w).settled hP hx⟩
  · intro h hh o hend
    obtain ⟨q, path, rfl⟩ := hs h hh
    cases hend

theorem Shop.fresh_start (q : Request) (w : World) :
    ∀ h ∈ (start q w).hands, ∃ q path, h = ⟨q, .fresh path⟩ := by
  intro h hh
  obtain ⟨path, -, rfl⟩ := List.mem_map.mp hh
  exact ⟨q, path, rfl⟩

/-- Every outcome of a batch, and every one in any history of its workers, lacks a result if and
only if the file failed before its output was written. -/
theorem result_eq_none_iff (q : Request) (w : World) :
    (∀ o ∈ (process q w).1,
      o.result? = none ↔ ∃ f, o.failure? = some f ∧ f.isOfOutput = false) ∧
    ∀ turns i o, ((Shop.start q w).takes turns).outcome? i = some o →
      (o.result? = none ↔ ∃ f, o.failure? = some f ∧ f.isOfOutput = false) := by
  refine ⟨fun o ho ↦ ?_, fun turns i o ho ↦ Shop.settled_takes (Shop.fresh_start q w) ho⟩
  cases hc : q.canceled with
  | true =>
    rw [process, hc] at ho
    obtain ⟨path, -, rfl⟩ := List.mem_map.mp ho
    exact Outcome.Settled.of_failure rfl
  | false =>
    obtain ⟨i, hi⟩ := List.mem_iff_getElem?.mp ho
    rw [← (Shop.process_eq_follow hc w).2 i, Shop.follow, Shop.run_eq_takes] at hi
    exact Shop.settled_takes (Shop.fresh_start q _) hi

/-- A batch that looks for a file that is not there. -/
def lostRequest : Request := { Shop.sampleRequest "x" with files := ["lost.cfg.toml"] }

/-- The outcome of a file that is not there has no result. -/
theorem result_eq_none_lostRequest :
    ∃ o, (process lostRequest ⟨Shop.sampleTree "x", .start, #[], .empty⟩).1 = [o] ∧
      o.result? = none := by
  let w : World := ⟨Shop.sampleTree "x", .start, #[], .empty⟩
  have hfailed : ((process lostRequest w).1.map fun o ↦
      o.failure?.any fun f ↦ !f.isOfOutput) = [true] := by decide +kernel
  obtain ⟨o, ho, hfailure⟩ := List.map_eq_singleton_iff.mp hfailed
  obtain ⟨f, hf, hkind⟩ := Option.any_eq_true .. |>.mp hfailure
  have hmem : o ∈ (process lostRequest w).1 := ho ▸ List.mem_singleton_self o
  exact ⟨o, ho, ((result_eq_none_iff lostRequest w).1 o hmem).mpr ⟨f, hf, by simpa using hkind⟩⟩

/-- A batch that is to write its output into a directory with the name of its only file. -/
def blockedRequest : Request :=
  { Shop.sampleRequest "x" with
    files := ["a/x.cfg.toml"]
    config := { Config.default with output.directory := "a/x.cfg.toml" } }

/-- With a faultless configuration, an outcome can have a failure and a result. -/
theorem exists_result_of_failure :
    ∃ q w o r f, q.canceled = false ∧ q.config.problems = [] ∧ o ∈ (process q w).1 ∧
      o.failure? = some f ∧ o.result? = some r := by
  let w : World := ⟨Shop.sampleTree "x", .start, #[⟨"a/x.cfg.toml", .load, .queued, none⟩], .empty⟩
  have hload : GraphFile.load w.tree "a/x.cfg.toml"
      = .ok (Shop.sampleLeaf "east", (Shop.leafText "east").toUTF8) :=
    Shop.load_leafText (by decide) (Shop.sampleRequest_spec.2.1 _ (by decide)) rfl
  obtain ⟨x, hx, hgraph⟩ := Shop.exists_findings_sampleLeaf (show "east" ∈ _ by decide)
  have hblocked : (Worker.openOutput blockedRequest.config w.tree "a/x.cfg.toml"
      (Shop.sampleLeaf "east")).1.isOk = false := by decide +kernel
  rw [← hgraph] at hblocked
  rcases hopen : Worker.openOutput blockedRequest.config w.tree "a/x.cfg.toml" x.graph
    with ⟨f | output, t⟩
  · obtain ⟨r, ho⟩ := processFile_of_unopened (q := blockedRequest) rfl hload hx hopen
    refine ⟨blockedRequest, ⟨Shop.sampleTree "x", .start, #[], .empty⟩, _, r, f, rfl,
      by decide +kernel, List.mem_singleton_self _, ?_, ?_⟩
    · exact congrArg Outcome.failure? ho
    · exact congrArg Outcome.result? ho
  · rw [hopen] at hblocked
    cases hblocked

/-! ## Reports

The reports of one worker tell a story: nothing closes the file as long as the worker is at work,
and then one report does. `Unclosed` is about a worker that is still at work and says that its
reports so far are the beginning of such a story, and `Closed` is about one that has ended. A step
adds reports to the story of its own worker only. -/

def World.reports (w : World) : List Event := w.events.toList

/-- Reports on one file, of which none closes it; they say whether its result was stored. -/
structure Unclosed (file : String) (cached : Bool) (es : List Event) : Prop where
  file_eq : ∀ e ∈ es, e.file = file
  closes : ∀ e ∈ es, e.closes = false
  stored : cached = true ↔ ∃ e ∈ es, e.status = .cached

/-- The reports of a worker that has ended. -/
structure Closed (o : Outcome) (es : List Event) : Prop where
  file_eq : ∀ e ∈ es, e.file = o.path
  closing : ∃ init last, es = init ++ [last] ∧ (∀ e ∈ init, e.closes = false) ∧
    last.closes = true ∧ (last.status = .error ↔ o.failure?.isSome)
  stored : o.failure? = none → (o.cached = true ↔ ∃ e ∈ es, e.status = .cached)

section Reports

variable {file : String} {cached : Bool} {es es' : List Event} {e : Event}

private theorem unclosed_nil (file : String) : Unclosed file false [] where
  file_eq _ he := absurd he List.not_mem_nil
  closes _ he := absurd he List.not_mem_nil
  stored := by simp

theorem Unclosed.append (h : Unclosed file cached es) (h' : Quiet file es') :
    Unclosed file cached (es ++ es') where
  file_eq := List.forall_mem_append.mpr ⟨h.file_eq, fun e he ↦ (h' e he).1⟩
  closes := List.forall_mem_append.mpr ⟨h.closes, fun e he ↦ (h' e he).2.1⟩
  stored := by
    rw [h.stored]
    refine exists_congr fun e ↦ and_congr_left fun hstatus ↦ ?_
    rw [List.mem_append, or_iff_left fun he ↦ (h' e he).2.2 hstatus]

private theorem Unclosed.found (h : Unclosed file false es) :
    Unclosed file true (es ++ [⟨file, .load, .cached, none⟩]) where
  file_eq := List.forall_mem_append.mpr ⟨h.file_eq, List.forall_mem_singleton.mpr rfl⟩
  closes := List.forall_mem_append.mpr ⟨h.closes, List.forall_mem_singleton.mpr rfl⟩
  stored := by simp

/-- A last report closes what came before it. -/
theorem Unclosed.close {o : Outcome} (h : Unclosed o.path cached es) (hfile : e.file = o.path)
    (hclose : e.closes = true) (hfailure : e.status = .error ↔ o.failure?.isSome)
    (hcached : o.failure? = none → o.cached = cached ∧ e.status ≠ .cached) :
    Closed o (es ++ [e]) where
  file_eq := List.forall_mem_append.mpr ⟨h.file_eq, List.forall_mem_singleton.mpr hfile⟩
  closing := ⟨es, e, rfl, h.closes, hclose, hfailure⟩
  stored hnone := by
    obtain ⟨hsame, hother⟩ := hcached hnone
    rw [hsame, h.stored]
    refine exists_congr fun e' ↦ and_congr_left fun hstatus ↦ ?_
    rw [List.mem_append, or_iff_left]
    intro he'
    rw [List.mem_singleton.mp he'] at hstatus
    exact hother hstatus

/-- An error closes a file that failed. -/
theorem Unclosed.fail {o : Outcome} (h : Unclosed o.path cached es) (hfile : e.file = o.path)
    (herror : e.status = .error) (hfailure : o.failure?.isSome) : Closed o (es ++ [e]) :=
  h.close hfile (by simp [Event.closes, herror]) (iff_of_true herror hfailure) fun hnone ↦ by
    rw [hnone] at hfailure
    cases hfailure

private theorem Unclosed.fails {o : Outcome} (h : Unclosed o.path cached es) (h' : Fails o.path es')
    (hfailure : o.failure?.isSome) : Closed o (es ++ es') := by
  obtain ⟨init, last, rfl, hinit, hfile, herror⟩ := h'
  rw [← List.append_assoc]
  exact (h.append hinit).fail hfile herror hfailure

end Reports

/-- Is the result of the worker one that was stored? -/
def Phase.isCached : Phase → Bool
  | .writing _ cached | .filling _ cached _ => cached
  | _ => false

/-- What a worker can have reported so far. -/
inductive Story (k : Worker) (es : List Event) : Prop
  | going (unfailed : k.failed = false) (unended : ∀ o, k.phase ≠ .ended o)
    (reports : Unclosed k.path k.phase.isCached es)
  | ended {o : Outcome} (phase : k.phase = .ended o) (path : o.path = k.path)
    (reports : Closed o es)

namespace Worker

/-- The reports of a worker that fails after an error was reported, or before. -/
theorem fail_reports (k : Worker) (w : World) (f : Failure) (r? : Option Pipeline.Result)
    (cached : Bool) : (k.fail w f r? cached).2.reports = w.reports ++
      if k.failed then [] else [⟨k.path, k.stage, .error, some f.message⟩] := by
  rw [fail]
  cases k.failed <;> simp [report, World.report, World.reports]

theorem fail_path (k : Worker) (w : World) (f : Failure) (r? : Option Pipeline.Result)
    (cached : Bool) : (k.fail w f r? cached).1.path = k.path := (k.fail_spec w f r? cached).1

end Worker

/-- A worker that has reported nothing wrong fails with an error. -/
theorem story_fail {es : List Event} (hk : k.failed = false)
    {cached : Bool} (h : Unclosed k.path cached es) (f : Failure) (r? : Option Pipeline.Result)
    (c : Bool) : ∃ es', (k.fail w f r? c).2.reports = w.reports ++ es' ∧
      Story (k.fail w f r? c).1 (es ++ es') := by
  refine ⟨_, k.fail_reports w f r? c, ?_⟩
  rw [hk]
  exact .ended (k.fail_end w f r? c) (k.fail_path w f r? c).symm (h.fail rfl rfl rfl)

private theorem story_takeOver {es es' : List Event} {key? : Option ByteArray}
    {result : Except Pipeline.Failure Pipeline.Result} {journal : Pipeline.Journal}
    (hk : k.failed = false) (h : Unclosed k.path false es) (hreports : journal.events.toList = es')
    (hes : Quiet k.path es' ∨ Pipeline.failure? result ≠ none ∧ Fails k.path es') :
    ∃ es', (k.takeOver w key? (result, journal)).2.reports = w.reports ++ es' ∧
      Story (k.takeOver w key? (result, journal)).1 (es ++ es') := by
  let k' : Worker :=
    { k with stage := (journal.events.back?.map Event.stage).getD k.stage,
             failed := k.failed || journal.events.any (·.status = .error) }
  let w' : World :=
    { w with recorder := journal.recorder, events := w.events ++ journal.events,
             timer := (journal.timed.foldl World.time w).timer }
  have hw' : w'.reports = w.reports ++ es' := by
    rw [← hreports]
    exact Array.toList_append
  have hk' : k'.failed = es'.any (·.status = .error) := by
    change (k.failed || journal.events.any (·.status = .error)) = _
    rw [hk, Bool.false_or, ← Array.any_toList, hreports]
  -- the flag is set exactly if the run has reported its failure, so there is one error either way
  rcases hes with hquiet | ⟨hfailed, hfails⟩
  · replace hk' : k'.failed = false := by
      rw [hk', List.any_eq_false]
      intro e he herror
      have hclose := (hquiet e he).2.1
      simp [Event.closes, of_decide_eq_true herror] at hclose
    cases result with
    | ok r => exact ⟨es', hw', .going hk' (fun _ h ↦ Phase.noConfusion h) (h.append hquiet)⟩
    | error f =>
      obtain ⟨es'', hevents, hstory⟩ := story_fail (k := k') (w := w') hk' (h.append hquiet)
        (.pipeline k.path f) none false
      exact ⟨es' ++ es'', by rw [← List.append_assoc, ← hw']; exact hevents,
        by rw [← List.append_assoc]; exact hstory⟩
  · replace hk' : k'.failed = true := by
      obtain ⟨init, last, rfl, -, -, herror⟩ := hfails
      rw [hk', List.any_append]
      simp [herror]
    cases result with
    | ok r => exact absurd rfl hfailed
    | error f =>
      have hevents := k'.fail_reports w' (.pipeline k.path f) none false
      rw [if_pos hk', List.append_nil, hw'] at hevents
      exact ⟨es', hevents, .ended (k'.fail_end w' (.pipeline k.path f) none false)
        (k'.fail_path w' _ _ _).symm (h.fails hfails rfl)⟩

private theorem Remarked.reports_eq {w' : World} (h : Remarked q k w w') :
    w'.reports = w.reports := by
  cases h <;> rfl

private theorem Story.ongoing {es : List Event} {phase : Phase} (h : Story k es)
    (hphase : k.phase = phase) (hgoing : ∀ o, phase ≠ .ended o) :
    k.failed = false ∧ Unclosed k.path phase.isCached es := by
  cases h with
  | going unfailed _ reports => exact ⟨unfailed, hphase ▸ reports⟩
  | ended hend => exact absurd (hphase.symm.trans hend) (hgoing _)

private theorem quiet_load_done (file : String) : Quiet file [⟨file, .load, .done, none⟩] :=
  Pipeline.quiet_singleton rfl (by simp [Event.closes]) (by simp)

private theorem Deed.story {es : List Event} (hd : Deed q calledOff k w x) (h : Story k es) :
    ∃ es', x.2.reports = w.reports ++ es' ∧ Story x.1 (es ++ es') := by
  cases hd with
  | started phase =>
    obtain ⟨hk, hreports⟩ := h.ongoing phase fun _ ↦ nofun
    exact ⟨_, Array.toList_push, .going (by simp [Worker.start, Worker.report, hk]) (fun _ ↦ nofun)
      (hreports.append (Pipeline.quiet_working k.path .load))⟩
  | unloaded phase e =>
    obtain ⟨hk, hreports⟩ := h.ongoing phase fun _ ↦ nofun
    exact story_fail (w := w.time .load) hk hreports (.load e) none false
  | loaded phase =>
    obtain ⟨hk, hreports⟩ := h.ongoing phase fun _ ↦ nofun
    refine ⟨[], (List.append_nil _).symm, .going hk (fun _ ↦ nofun) ?_⟩
    rw [List.append_nil]
    exact hreports
  | found phase r =>
    obtain ⟨hk, hreports⟩ := h.ongoing phase fun _ ↦ nofun
    exact ⟨_, Array.toList_push, .going (by simp [Worker.report, hk]) (fun _ ↦ nofun)
      hreports.found⟩
  | @missed g bytes w' phase remarked key? =>
    obtain ⟨hk, hreports⟩ := h.ongoing phase fun _ ↦ nofun
    refine ⟨_, ?_, .going (by simp [Worker.report, hk]) (fun _ ↦ nofun)
      (hreports.append (quiet_load_done k.path))⟩
    rw [← remarked.reports_eq]
    exact Array.toList_push
  -- the stages report what the run comes to, and the worker ends if that is a failure
  | @ran g key? phase =>
    obtain ⟨hk, hreports⟩ := h.ongoing phase fun _ ↦ nofun
    obtain ⟨es', hes', hcases⟩ := (Pipeline.course_of_run calledOff
      ⟨q.config.pipeline, k.path, q.level, k.span.id, false⟩ w.recorder g).exists_reports
    exact story_takeOver hk hreports hes' hcases
  | stored phase remarked =>
    obtain ⟨hk, hreports⟩ := h.ongoing phase fun _ ↦ nofun
    refine ⟨[], ?_, .going hk (fun _ ↦ nofun) ((List.append_nil es).symm ▸ hreports)⟩
    rw [List.append_nil]
    exact remarked.reports_eq
  | @opened r cached phase t output =>
    obtain ⟨hk, hreports⟩ := h.ongoing phase fun _ ↦ nofun
    refine ⟨[], (List.append_nil _).symm, .going hk (fun _ ↦ nofun) ?_⟩
    rw [List.append_nil]
    exact hreports
  | @written r cached phase t output =>
    have hreports : Unclosed k.path cached es := by
      rcases phase with phase | ⟨output', phase⟩ <;> exact (h.ongoing phase fun _ ↦ nofun).2
    have hclosed := hreports.close (o := ⟨k.path, some r, output, cached, none⟩)
      (e := ⟨k.path, .write, .done, none⟩) rfl (by simp [Event.closes]) (by simp)
      fun _ ↦ ⟨rfl, by simp⟩
    exact ⟨_, Array.toList_push, .ended rfl rfl hclosed⟩
  | @unopened r cached f phase t kind =>
    obtain ⟨hk, hreports⟩ := h.ongoing phase fun _ ↦ nofun
    exact story_fail (w := { w with tree := t }) hk hreports f (some r) cached
  | idle phase => exact ⟨[], (List.append_nil _).symm, (List.append_nil es).symm ▸ h⟩

namespace Shop

/-- The reports of every worker are its story. -/
theorem story_takes {s : Shop} (hs : ∀ h ∈ s.hands, ∃ q path, h = ⟨q, .fresh path⟩)
    {turns : List Turn} {i : Nat} {h : Hand} (hi : (s.takes turns).hands[i]? = some h) :
    Story h.worker (shareOf i (s.ledger World.reports turns)) := by
  have hfresh : ∀ path, Story (.fresh path) [] := fun path ↦
    .going rfl (fun _ ↦ nofun) (unclosed_nil path)
  refine along World.reports (P := fun h es ↦ Story h.worker es) (fun _ path ↦ hfresh path) ?_ ?_
    turns hi
  · exact fun h calledOff w es hstory ↦ (h.worker.deed_of_step h.request calledOff w).story hstory
  · intro h hh
    obtain ⟨q, path, rfl⟩ := hs h hh
    exact hfresh path

/-- Of a worker that is given seven turns, whatever the others do in between and whenever the batch
is called off, the last report closes the file and no other one does; it is an error if and only if
the file failed. -/
theorem exists_closing_report (q : Request) (w : World) {i : Nat} {path : String}
    (hpath : q.files[i]? = some path) {turns : List Turn}
    (hcount : Worker.stepLimit ≤ turns.countP (·.isBy i)) :
    ∃ o init last, ((start q w).takes turns).outcome? i = some o ∧
      shareOf i ((start q w).ledger World.reports turns) = init ++ [last] ∧
      (∀ e ∈ init, e.closes = false) ∧ last.closes = true ∧
      (last.status = .error ↔ o.failure?.isSome) := by
  have hi : (start q w).hands[i]? = some ⟨q, .fresh path⟩ := by
    rw [start, List.getElem?_map, hpath]
    rfl
  obtain ⟨h, o, hh, hend⟩ := exists_ended hi hcount
  cases story_takes (fresh_start q w) hh with
  | going _ unended => exact absurd hend (unended o)
  | @ended o' phase _ reports =>
    cases hend.symm.trans phase
    obtain ⟨init, last, hreports, hinit, hlast, herror⟩ := reports.closing
    exact ⟨o, init, last, outcome?_eq_some.mpr ⟨h, hh, hend⟩, hreports, hinit, hlast, herror⟩

/-- The second of two files ends after its seven turns, although the batch is called off before its
blocks are renumbered. -/
theorem exists_closing_report_sampleRequest :
    ∃ o init last,
      ((start (sampleRequest "x") ⟨sampleTree "x", .start, #[], .empty⟩).takes
        (.work 0 (fun _ ↦ false) :: List.replicate 7 (.work 1 (· = .order)))).outcome? 1 = some o ∧
      shareOf 1 ((start (sampleRequest "x") ⟨sampleTree "x", .start, #[], .empty⟩).ledger
        World.reports (.work 0 (fun _ ↦ false) :: List.replicate 7 (.work 1 (· = .order))))
          = init ++ [last] ∧
      (∀ e ∈ init, e.closes = false) ∧ last.closes = true ∧
      (last.status = .error ↔ o.failure?.isSome) :=
  exists_closing_report _ _ rfl (by decide)

end Shop

end Flowgraph.Batch
