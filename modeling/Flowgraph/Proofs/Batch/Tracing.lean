import Flowgraph.Proofs.Batch.Endings

/-!
# The spans of workers

A worker begins a span for its file and ends it when it ends. The spans of the stages are begun and
ended by the runs of the pipeline inside. All workers record into one trace.

What a worker records by itself is nested, and all its spans are ended when it has ended, unless a
stage broke a precondition while the spans of stages were recorded: then the span of this stage
stays open for ever, and everything else is as it should be (`spans_of_outcome`).

The argument has two parts. `Trail` says how the events of one worker and its open spans fit
together in each phase; a step of the worker goes on with its trail (`Trail.step`). The other
workers add their events to the same trace in between, and open and end spans with other numbers,
which leaves the trail as it is (`Trail.of_others`). `Balanced` puts the trails of all workers
together.
-/

namespace Flowgraph.Batch

open Pipeline (Stage)
open Trace (Recorder Nested LeftOpen begun ended)
open Trace.Recorder (Nests Leaves Grows)

variable {q : Request} {calledOff : Stage → Bool} {k k' : Worker} {w : World} {x : Worker × World}
  {r r' : Recorder} {es : List Trace.Event}

/-! ## What a step records

Loading and looking record nothing or one point. The pipeline begins and ends the spans of its
stages, and the end of a worker ends its own span, with the one exception of a breach. `Traced` has
a case for each. -/

/-- Has the worker started and not ended? -/
def Phase.isBusy : Phase → Bool
  | .waiting | .ended _ => false
  | _ => true

/-- Did a stage break a precondition? -/
def Failure.isBreach : Failure → Bool
  | .pipeline _ f => f.isBreach
  | _ => false

/-- Did a stage whose span is recorded break a precondition? -/
def Outcome.breaksOff (o : Outcome) (q : Request) : Bool :=
  o.failure?.any Failure.isBreach && q.level.showsStages

/-- What a step of a worker does to the recorder. -/
inductive Traced (q : Request) (k : Worker) (r : Recorder) : Worker → Recorder → Prop
  | opened {k' : Worker} (phase : k.phase = .waiting) (busy : k'.phase.isBusy = true)
    (span : k'.span = (r.begin q.level .driver s!"file:{k.path}" q.parent).2) :
    Traced q k r k' (r.begin q.level .driver s!"file:{k.path}" q.parent).1
  | worked {k' : Worker} {r' : Recorder} {es : List Trace.Event} (busy : k.phase.isBusy = true)
    (busy' : k'.phase.isBusy = true) (span : k'.span = k.span) (nests : Nests k.span.id r r' es)
    (hidden : q.level.showsStages = false → begun es = []) : Traced q k r k' r'
  | closed {k' : Worker} {o : Outcome} {r₁ : Recorder} {es : List Trace.Event} (note : String)
    (busy : k.phase.isBusy = true) (phase : k'.phase = .ended o) (whole : o.breaksOff q = false)
    (nests : Nests k.span.id r r₁ es) (hidden : q.level.showsStages = false → begun es = []) :
    Traced q k r k' (r₁.finish k.span note)
  | broken {k' : Worker} {o : Outcome} {r₁ : Recorder} {es : List Trace.Event} {x : Trace.Span}
    (note : String) (busy : k.phase.isBusy = true) (phase : k'.phase = .ended o)
    (broke : o.breaksOff q = true) (leaves : Leaves k.span.id r r₁ es x) (scope : x.scope = .pass)
    (name : ∃ s : Stage, x.name = s.text) : Traced q k r k' (r₁.finish k.span note)
  | idle {o : Outcome} (phase : k.phase = .ended o) : Traced q k r k r

theorem Worker.fail_recorder (k : Worker) (w : World) (f : Failure) (r? : Option Pipeline.Result)
    (cached : Bool) :
    (k.fail w f r? cached).2.recorder = w.recorder.finish k.span s!"error: {f.message}" := by
  rw [fail]
  cases k.failed <;> rfl

/-- A failure that is no breach ends the span of the file, which has nothing open inside. -/
theorem traced_fail {es : List Trace.Event} (busy : k.phase.isBusy = true) (span : k'.span = k.span)
    {f : Failure} (hf : (f.isBreach && q.level.showsStages) = false) (r? : Option Pipeline.Result)
    (cached : Bool) (nests : Nests k.span.id r w.recorder es)
    (hidden : q.level.showsStages = false → begun es = []) :
    Traced q k r (k'.fail w f r? cached).1 (k'.fail w f r? cached).2.recorder := by
  rw [k'.fail_recorder, span]
  exact .closed _ busy (k'.fail_end w f r? cached) hf nests hidden

private theorem Remarked.exists_nests {w' : World} (h : Remarked q k w w') :
    ∃ es, Nests k.span.id w.recorder w'.recorder es ∧ begun es = [] := by
  cases h with
  | silent t => exact ⟨[], .refl _ _, rfl⟩
  | said t detail => exact Trace.Recorder.nests_point ..

private theorem Failure.isBreach_of_isOfOutput {f : Failure} (h : f.isOfOutput = true) :
    f.isBreach = false := by
  cases f <;> first | rfl | cases h

private theorem traced_takeOver {key? : Option ByteArray}
    {run : Except Pipeline.Failure Pipeline.Result × Pipeline.Journal}
    (busy : k.phase.isBusy = true)
    (spans : Pipeline.Spans ⟨q.config.pipeline, k.path, q.level, k.span.id, false⟩ w.recorder
      (Pipeline.failure? run.1) run.2.recorder) :
    Traced q k w.recorder (k.takeOver w key? run).1 (k.takeOver w key? run).2.recorder := by
  obtain ⟨f | result, journal⟩ := run
  · let k' : Worker :=
      { k with stage := (journal.events.back?.map Pipeline.Event.stage).getD k.stage,
               failed := k.failed || journal.events.any (·.status = .error) }
    let w' : World :=
      { w with recorder := journal.recorder, events := w.events ++ journal.events,
               timer := (journal.timed.foldl World.time w).timer }
    cases hbroke : (f.isBreach && q.level.showsStages) with
    | false =>
      obtain ⟨es, hnests, hhidden⟩ := spans.nests hbroke
      have hspan : k'.span = k.span := rfl
      exact traced_fail (w := w') (f := .pipeline k.path f) busy hspan hbroke none false hnests
        hhidden
    | true =>
      obtain ⟨es, x, hleaves, hscope, hname⟩ := spans.leaves hbroke
      have hrecorder := k'.fail_recorder w' (.pipeline k.path f) none false
      exact hrecorder ▸ .broken _ busy (k'.fail_end w' (.pipeline k.path f) none false) hbroke
        hleaves hscope hname
  · obtain ⟨es, hnests, hhidden⟩ := spans.nests rfl
    exact .worked busy rfl rfl hnests hhidden

private theorem Deed.traced (hd : Deed q calledOff k w x) (hs : w.recorder.Sane) :
    Traced q k w.recorder x.1 x.2.recorder := by
  have hrefl : Nests k.span.id w.recorder w.recorder [] := .refl _ _
  cases hd with
  | started phase => exact .opened phase rfl rfl
  | unloaded phase e =>
    exact traced_fail (w := w.time .load) (by rw [phase]; rfl) rfl rfl none false hrefl fun _ ↦ rfl
  | loaded phase => exact .worked (by rw [phase]; rfl) rfl rfl hrefl fun _ ↦ rfl
  | found phase => exact .worked (by rw [phase]; rfl) rfl rfl hrefl fun _ ↦ rfl
  | opened phase => exact .worked (by rw [phase]; rfl) rfl rfl hrefl fun _ ↦ rfl
  | missed phase remarked =>
    obtain ⟨es, hnests, hnone⟩ := remarked.exists_nests
    exact .worked (by rw [phase]; rfl) rfl rfl hnests fun _ ↦ hnone
  | ran phase =>
    exact traced_takeOver (by rw [phase]; rfl) ((Pipeline.course_of_run calledOff
      ⟨q.config.pipeline, k.path, q.level, k.span.id, false⟩ w.recorder _).spans hs)
  | stored phase remarked =>
    obtain ⟨es, hnests, hnone⟩ := remarked.exists_nests
    exact .worked (by rw [phase]; rfl) rfl rfl hnests fun _ ↦ hnone
  | written phase t output =>
    have busy : k.phase.isBusy = true := by
      rcases phase with phase | ⟨output', phase⟩ <;> rw [phase] <;> rfl
    exact .closed _ busy rfl rfl hrefl fun _ ↦ rfl
  | @unopened r cached f phase t kind =>
    refine traced_fail (w := { w with tree := t }) (by rw [phase]; rfl) rfl ?_ (some r) cached hrefl
      fun _ ↦ rfl
    rw [Failure.isBreach_of_isOfOutput kind, Bool.false_and]
  | idle phase => exact .idle phase

/-! ## Trails

The trail of a worker fits its events to its phase: there are none yet, the span of the file is open
with nested events inside, or all is closed. If the level does not show the span of the file, it
shows nothing else that could stay open. The last case is that of a stage that broke off, whose span
stays open after that of the file has ended. -/

/-- How what a worker recorded and which of its spans are open fit to its phase. -/
inductive Trail (q : Request) (k : Worker) (r : Recorder) (es : List Trace.Event) : Prop
  | waiting (phase : k.phase = .waiting) (none : es = [])
  /-- The span of the file is not recorded, and no other one is. -/
  | hidden (busy : k.phase.isBusy = true) (span : k.span = .discarded)
    (hides : q.level.showsStages = false) (nested : Nested q.parent es) (none : begun es = [])
  /-- The span of the file is open, and nothing is open inside. -/
  | busy {b : Trace.Event} {inner : List Trace.Event} (busy : k.phase.isBusy = true)
    (begins : b.kind = .spanBegin) (span : b.span = k.span.id) (under : b.parent = q.parent)
    (recorded : k.span.id ≠ 0) (events : es = b :: inner) (nested : Nested k.span.id inner)
    (opens : ∀ y : Trace.Span, y.id ∈ begun es → (y ∈ r.openSpans ↔ y = k.span))
  | whole {o : Outcome} (phase : k.phase = .ended o) (whole : o.breaksOff q = false)
    (nested : Nested q.parent es) (opens : ∀ y ∈ r.openSpans, y.id ∉ begun es)
  /-- The span of a stage is open for ever. -/
  | broken {o : Outcome} {x : Trace.Span} (phase : k.phase = .ended o)
    (broke : o.breaksOff q = true) (left : LeftOpen q.parent x.id es) (scope : x.scope = .pass)
    (name : ∃ s : Stage, x.name = s.text)
    (opens : ∀ y : Trace.Span, y.id ∈ begun es → (y ∈ r.openSpans ↔ y = x))

namespace Trail

private theorem of_others (h : Trail q k r es)
    (hr : ∀ y : Trace.Span, y.id ∈ begun es → (y ∈ r'.openSpans ↔ y ∈ r.openSpans)) :
    Trail q k r' es := by
  cases h with
  | waiting phase none => exact .waiting phase none
  | hidden busy span hides nested none => exact .hidden busy span hides nested none
  | busy busy begins span under recorded events nested opens =>
    exact .busy busy begins span under recorded events nested fun y hy ↦
      (hr y hy).trans (opens y hy)
  | whole phase whole nested opens =>
    exact .whole phase whole nested fun y hy hmem ↦ opens y ((hr y hmem).mp hy) hmem
  | broken phase broke left scope name opens =>
    exact .broken phase broke left scope name fun y hy ↦ (hr y hy).trans (opens y hy)

private theorem opened (hs : r.Sane) (busy : k'.phase.isBusy = true)
    (span : k'.span = (r.begin q.level .driver s!"file:{k.path}" q.parent).2) :
    ∃ es, Grows [] r (r.begin q.level .driver s!"file:{k.path}" q.parent).1 es ∧
      Trail q k' (r.begin q.level .driver s!"file:{k.path}" q.parent).1 es := by
  rcases r.begin_cases q.level .driver s!"file:{k.path}" q.parent with ⟨-, b, hb⟩ | ⟨hhides, hnone⟩
  · have hbegun : begun [b] = [k'.span.id] := by
      rw [Trace.begun_cons_of_begin hb.kind, hb.span, span]
      rfl
    refine ⟨[b], hb.grows hs, .busy busy hb.kind (hb.span.trans (congrArg _ span.symm)) hb.under
      (by rw [span, hb.id]; exact Nat.succ_ne_zero _) rfl (.nil _) fun y hy ↦ ?_⟩
    rw [hbegun, List.mem_singleton] at hy
    rw [hb.openSpans, List.mem_cons, ← span, or_iff_left]
    -- no span that was open before has the new number
    intro hopen
    exact absurd hy (span ▸ hb.lt_id hs hopen).ne
  · rw [hnone] at span ⊢
    exact ⟨[], (Trace.Recorder.Nests.refl 0 r).grows hs,
      .hidden busy span (Trace.Level.showsStages_eq_false hhides) (.nil _) rfl⟩

section Step

variable {es' : List Trace.Event} {r₁ : Recorder} (h : Trail q k r es) (hs : r.Sane)
  (busy : k.phase.isBusy = true)

include h hs busy

private theorem worked (hle : ∀ n ∈ begun es, n ≤ r.lastSpan) (busy' : k'.phase.isBusy = true)
    (span : k'.span = k.span) (nests : Nests k.span.id r r' es')
    (hidden : q.level.showsStages = false → begun es' = []) : Trail q k' r' (es ++ es') := by
  cases h with
  | waiting phase | whole phase | broken phase => rw [phase] at busy; cases busy
  | hidden _ hspan hides nested none =>
    have hnone := hidden hides
    refine .hidden busy' (span.trans hspan) hides
      (nested.append (nests.nested.of_begun_eq_nil hnone)) ?_
    rw [Trace.begun_append, none, hnone, List.append_nil]
  | @busy b inner _ begins hspan under recorded events nested opens =>
    refine .busy busy' begins (hspan.trans (congrArg _ span.symm)) under (span ▸ recorded)
      (by rw [events, List.cons_append]) (span ▸ nested.append nests.nested) fun y hy ↦ ?_
    rw [Trace.begun_append, List.mem_append] at hy
    rw [nests.openSpans, span]
    rcases hy with hy | hy
    · exact opens y hy
    · have hown : k.span.id ∈ begun es := by
        rw [events, ← hspan]
        exact Trace.mem_begun_cons begins
      refine iff_of_false (hs.notMem_of_lt (nests.fresh _ hy).1) ?_
      rintro rfl
      exact absurd (hle _ hown) (not_le.mpr (nests.fresh _ hy).1)

private theorem closed {o : Outcome} (note : String) (phase : k'.phase = .ended o)
    (whole : o.breaksOff q = false) (nests : Nests k.span.id r r₁ es')
    (hidden : q.level.showsStages = false → begun es' = []) :
    ∃ es', Grows (begun es) r (r₁.finish k.span note) es' ∧
      Trail q k' (r₁.finish k.span note) (es ++ es') := by
  cases h with
  | waiting phase | whole phase | broken phase => rw [phase] at busy; cases busy
  | hidden _ hspan hides nested none =>
    have hnone := hidden hides
    rw [hspan, Trace.Recorder.finish_discarded]
    refine ⟨es', nests.grows hs, .whole phase whole
      (nested.append (nests.nested.of_begun_eq_nil hnone)) fun y _ ↦ ?_⟩
    rw [Trace.begun_append, none, hnone]
    exact List.not_mem_nil
  | @busy b inner _ begins hspan under recorded events nested opens =>
    have hown : k.span.id ∈ begun es := by
      rw [events, ← hspan]
      exact Trace.mem_begun_cons begins
    obtain ⟨e, hkind, hend, hgrows, hopen⟩ := (nests.grows hs).finish hown recorded note
    refine ⟨es' ++ [e], hgrows, .whole phase whole ?_ fun y hy hmem ↦ ?_⟩
    · rw [events, List.cons_append, ← List.append_assoc]
      exact .span begins under (hspan ▸ nested.append nests.nested) hkind (hend.trans hspan.symm)
        (.nil _)
    · rw [hopen, nests.openSpans] at hy
      rw [Trace.begun_append, Trace.begun_append, Trace.begun_end hkind, List.append_nil,
        List.mem_append] at hmem
      rcases hmem with hmem | hmem
      · exact hy.2 (congrArg _ ((opens y hmem).mp hy.1))
      · exact hs.notMem_of_lt (nests.fresh _ hmem).1 hy.1

private theorem broken_off {o : Outcome} {x : Trace.Span} (hle : ∀ n ∈ begun es, n ≤ r.lastSpan)
    (note : String) (phase : k'.phase = .ended o) (broke : o.breaksOff q = true)
    (leaves : Leaves k.span.id r r₁ es' x) (scope : x.scope = .pass)
    (name : ∃ s : Stage, x.name = s.text) :
    ∃ es', Grows (begun es) r (r₁.finish k.span note) es' ∧
      Trail q k' (r₁.finish k.span note) (es ++ es') := by
  cases h with
  | waiting phase | whole phase | broken phase => rw [phase] at busy; cases busy
  | hidden _ hspan hides =>
    rw [Outcome.breaksOff, hides, Bool.and_false] at broke
    cases broke
  | @busy b inner _ begins hspan under recorded events nested opens =>
    have hown : k.span.id ∈ begun es := by
      rw [events, ← hspan]
      exact Trace.mem_begun_cons begins
    -- the open span is newer than the one of the worker, so that ending the latter leaves it open
    have hnew := (leaves.fresh _ leaves.nested.mem_begun).1
    obtain ⟨e, hkind, hend, hgrows, hopen⟩ := (leaves.grows hs).finish hown recorded note
    refine ⟨es' ++ [e], hgrows, .broken phase broke ?_ scope name fun y hmem ↦ ?_⟩
    · rw [events, List.cons_append, ← List.append_assoc]
      exact .span begins under (hspan ▸ .append_left nested leaves.nested) hkind
        (hend.trans hspan.symm)
    · rw [Trace.begun_append, Trace.begun_append, Trace.begun_end hkind, List.append_nil,
        List.mem_append] at hmem
      have hother : x.id ≠ k.span.id := fun heq ↦ absurd (hle _ hown) (not_le.mpr (heq ▸ hnew))
      rw [hopen, leaves.openSpans, List.mem_cons]
      constructor
      · rintro ⟨hy | hy, hid⟩
        · exact hy
        · rcases hmem with hmem | hmem
          · exact absurd (congrArg _ ((opens y hmem).mp hy)) hid
          · exact absurd hy (hs.notMem_of_lt (leaves.fresh _ hmem).1)
      · rintro rfl
        exact ⟨Or.inl rfl, hother⟩

end Step

private theorem step (h : Trail q k r es) (hs : r.Sane) (hle : ∀ n ∈ begun es, n ≤ r.lastSpan)
    (ht : Traced q k r k' r') : ∃ es', Grows (begun es) r r' es' ∧ Trail q k' r' (es ++ es') := by
  cases ht with
  | opened phase busy span =>
    cases h with
    | waiting _ none =>
      rw [none]
      exact opened hs busy span
    | hidden hbusy | busy hbusy => rw [phase] at hbusy; cases hbusy
    | whole hphase | broken hphase => cases hphase.symm.trans phase
  | worked busy busy' span nests hidden =>
    exact ⟨_, nests.grows hs, h.worked hs busy hle busy' span nests hidden⟩
  | closed note busy phase whole nests hidden =>
    exact h.closed hs busy note phase whole nests hidden
  | broken note busy phase broke leaves scope name =>
    exact h.broken_off hs busy hle note phase broke leaves scope name
  | idle =>
    exact ⟨[], (Trace.Recorder.Nests.refl 0 r).grows hs, (List.append_nil es).symm ▸ h⟩

end Trail

/-! ## All workers

The numbers of spans are what keeps the workers apart. Whoever begins a span gets a number that
nobody has had, so that it is neither among the open spans nor in the trail of another worker. -/

def World.trace (w : World) : List Trace.Event := w.recorder.events

/-- The numbers of the spans that several parties began: up to a last one, and none twice. -/
structure Numbered (last : Nat) (share : Nat → List Trace.Event) : Prop where
  bounded : ∀ i, ∀ n ∈ begun (share i), n ≤ last
  apart : ∀ i j, i ≠ j → (begun (share i)).Disjoint (begun (share j))
  nodup : ∀ i, (begun (share i)).Nodup

private theorem Numbered.extend {last : Nat} {share share' : Nat → List Trace.Event} {i : Nat}
    (h : Numbered last share) (hr : Grows (begun (share i)) r r' es) (hlast : r.lastSpan = last)
    (hself : share' i = share i ++ es) (hother : ∀ j, j ≠ i → share' j = share j) :
    Numbered r'.lastSpan share' := by
  subst hlast
  -- the numbers that the others have used are not above the last one, and the new ones are
  have hnew : ∀ j, (begun (share j)).Disjoint (begun es) := fun j n hn hmem ↦
    absurd (h.bounded j n hn) (not_le.mpr (hr.fresh n hmem).1)
  have hapart : ∀ j, j ≠ i → (begun (share' i)).Disjoint (begun (share' j)) := by
    intro j hj
    rw [hself, hother j hj, Trace.begun_append, List.disjoint_append_left]
    exact ⟨h.apart i j hj.symm, (hnew j).symm⟩
  constructor
  · intro j n hn
    by_cases hj : j = i
    · rw [hj, hself, Trace.begun_append, List.mem_append] at hn
      exact hn.elim (fun hn ↦ (h.bounded i n hn).trans hr.le) fun hn ↦ (hr.fresh n hn).2
    · rw [hother j hj] at hn
      exact (h.bounded j n hn).trans hr.le
  · intro j j' hne
    by_cases hj : j = i
    · exact hj ▸ hapart j' (hj ▸ hne.symm)
    by_cases hj' : j' = i
    · exact hj' ▸ (hapart j hj).symm
    · rw [hother j hj, hother j' hj']
      exact h.apart j j' hne
  · intro j
    by_cases hj : j = i
    · rw [hj, hself, Trace.begun_append]
      exact (h.nodup i).append hr.nodup (hnew i)
    · rw [hother j hj]
      exact h.nodup j

/-- The trails of all workers, in which no number of a span occurs twice. -/
structure Balanced (s : Shop) (l : List (Nat × Trace.Event)) : Prop where
  sane : s.world.recorder.Sane
  blank : ∀ i, s.hands[i]? = none → shareOf i l = []
  numbered : Numbered s.world.recorder.lastSpan (shareOf · l)
  trails : ∀ i h, s.hands[i]? = some h → Trail h.request h.worker s.world.recorder (shareOf i l)

namespace Balanced

variable {s : Shop} {l : List (Nat × Trace.Event)} (hl : Balanced s l)

include hl

private theorem hire (q : Request) (path : String) : Balanced (s.take (.hire q path)) l where
  sane := hl.sane
  blank i hi := by
    refine hl.blank i (List.getElem?_eq_none ?_)
    rw [Shop.take, List.getElem?_eq_none_iff, List.length_append] at hi
    exact Nat.le_of_add_right_le hi
  numbered := hl.numbered
  trails i h hi := by
    rcases Shop.hand_of_take_hire hi with hi | ⟨rfl, rfl⟩
    · exact hl.trails i h hi
    · exact .waiting rfl (hl.blank _ (List.getElem?_eq_none le_rfl))

private theorem work {i : Nat} {h : Hand} (hi : s.hands[i]? = some h) :
    Balanced (s.take (.work i calledOff))
      (l ++ s.entries World.trace (.work i calledOff)) := by
  obtain ⟨es, hgrows, htrail⟩ := (hl.trails i h hi).step hl.sane (hl.numbered.bounded i)
    ((h.worker.deed_of_step h.request calledOff s.world).traced hl.sane)
  have hself : shareOf i (l ++ s.entries World.trace (.work i calledOff)) = shareOf i l ++ es :=
    Shop.shareOf_work_self hi hgrows.events l
  have hother : ∀ j, j ≠ i →
      shareOf j (l ++ s.entries World.trace (.work i calledOff)) = shareOf j l :=
    fun j hj ↦ Shop.shareOf_work_of_ne hj l
  have hworld : (s.take (.work i calledOff)).world.recorder
      = (h.worker.stepUnless calledOff h.request s.world).2.recorder := by
    rw [Shop.take_work hi]
  rw [← hworld] at hgrows htrail
  refine ⟨hgrows.sane, fun j hj ↦ ?_, hl.numbered.extend hgrows rfl hself hother,
    fun j hand hj ↦ ?_⟩
  · have hji : j ≠ i := by
      rintro rfl
      rw [Shop.take_work hi, List.getElem?_eq_none_iff, List.length_set] at hj
      exact absurd (List.getElem?_eq_some_iff.mp hi).1 (not_lt.mpr hj)
    rw [Shop.take_work hi, List.getElem?_set_ne hji.symm] at hj
    rw [hother j hji]
    exact hl.blank j hj
  · rcases Shop.hand_of_take_work hi hj with ⟨rfl, rfl⟩ | ⟨hji, hj⟩
    · rw [hself]
      exact htrail
    · -- the spans that this worker ends have other numbers than those of the worker at `j`
      rw [hother j hji]
      refine (hl.trails j hand hj).of_others fun y hy ↦ hgrows.others y ?_ ?_
      · exact hl.numbered.bounded j _ hy
      · exact fun hmem ↦ hl.numbered.apart i j hji.symm hmem hy

private theorem take (t : Turn) : Balanced (s.take t) (l ++ s.entries World.trace t) := by
  cases t with
  | hire q path =>
    rw [Shop.entries, List.append_nil]
    exact hl.hire q path
  | edit t =>
    rw [Shop.entries, List.append_nil]
    exact ⟨hl.sane, hl.blank, hl.numbered, hl.trails⟩
  | work i calledOff =>
    cases hi : s.hands[i]? with
    | none =>
      rw [Shop.take_of_none hi, Shop.entries_of_none hi, List.append_nil]
      exact hl
    | some h => exact hl.work hi

end Balanced

namespace Shop

theorem balanced_takes (q : Request) {w : World} (hw : w.recorder.Sane) (turns : List Turn) :
    Balanced ((start q w).takes turns) ((start q w).ledger World.trace turns) := by
  refine kept ⟨hw, fun _ _ ↦ rfl, ⟨?_, ?_, ?_⟩, fun i h hi ↦ ?_⟩ (fun _ _ t hl ↦ hl.take t) turns
  · exact fun _ n hn ↦ absurd hn List.not_mem_nil
  · exact fun _ _ _ ↦ List.disjoint_nil_left _
  · exact fun _ ↦ List.nodup_nil
  · obtain ⟨q', path, rfl⟩ := fresh_start q w h (List.mem_of_getElem? hi)
    exact .waiting rfl rfl

theorem request_eq_of_takes (q : Request) (w : World) {turns : List Turn} {i : Nat} {h : Hand}
    (hlen : i < q.files.length) (hi : ((start q w).takes turns).hands[i]? = some h) :
    h.request = q := by
  have hstart : (start q w).hands[i]? = some ⟨q, .fresh q.files[i]⟩ := by
    rw [start, List.getElem?_map, List.getElem?_eq_getElem hlen]
    rfl
  obtain ⟨h', hi', hrequest, -⟩ := stepsLeft_takes turns hstart
  cases hi'.symm.trans hi
  exact hrequest

/-- The spans that a worker has recorded when it has ended, whatever the others record in between
and whenever the batch is called off. They have different numbers. Unless a stage broke a
precondition while the spans of stages were recorded, they are nested under the parent that the
batch gives, and none is open. Otherwise one of them, that of a stage, has begun without an end and
stays open; the rest is nested, and nothing else is open. -/
theorem spans_of_outcome (q : Request) {w : World} (hw : w.recorder.Sane) (turns : List Turn)
    {i : Nat} {o : Outcome} (hlen : i < q.files.length)
    (ho : ((start q w).takes turns).outcome? i = some o) :
    let es := shareOf i ((start q w).ledger World.trace turns)
    let opened := ((start q w).takes turns).world.recorder.openSpans
    (begun es).Nodup ∧
    (o.breaksOff q = false → Nested q.parent es ∧ ∀ x ∈ opened, x.id ∉ begun es) ∧
    (o.breaksOff q = true →
      ∃ x, x.scope = .pass ∧ (∃ s : Stage, x.name = s.text) ∧ LeftOpen q.parent x.id es ∧
        x.id ∉ ended es ∧ ∀ y, y.id ∈ begun es → (y ∈ opened ↔ y = x)) := by
  obtain ⟨h, hi, hend⟩ := outcome?_eq_some.mp ho
  have hl := balanced_takes q hw turns
  have hnodup := hl.numbered.nodup i
  have htrail := hl.trails i h hi
  rw [request_eq_of_takes q w hlen hi] at htrail
  refine ⟨hnodup, ?_⟩
  cases htrail with
  | waiting phase => cases phase.symm.trans hend
  | hidden busy | busy busy => rw [hend] at busy; cases busy
  | whole phase whole nested opens =>
    cases phase.symm.trans hend
    exact ⟨fun _ ↦ ⟨nested, opens⟩, fun broke ↦ absurd (whole.symm.trans broke) Bool.false_ne_true⟩
  | @broken _ x phase broke left scope name opens =>
    cases phase.symm.trans hend
    exact ⟨fun whole ↦ absurd (whole.symm.trans broke) Bool.false_ne_true,
      fun _ ↦ ⟨x, scope, name, left, left.notMem_ended hnodup, opens⟩⟩

/-- The turns of a worker that works by itself. -/
def alone : List Turn := List.replicate Worker.stepLimit (.work 0 fun _ ↦ false)

private theorem outcome?_takes_alone {path : String} (hfiles : q.files = [path]) (w : World) :
    ((start q w).takes alone).outcome? 0 = some (processFile q w path).1 := by
  have hfollow := (follow_inOrder q w).2 0
  rw [hfiles, follow, run_eq_takes] at hfollow
  exact hfollow

/-- A batch of two files that records the spans of stages. -/
def stagesRequest : Request := { packedRequest with level := .phase }

/-- What the first worker records while the second one works at its side. -/
def firstTrace : List Trace.Event :=
  shareOf 0 ((start stagesRequest (packedWorld "east" "west")).ledger World.trace sideBySide)

/-- Of two workers side by side, each with the spans of a file and of five stages, the first one has
nested its own spans and ended all of them. -/
theorem spans_of_outcome_sideBySide :
    begun firstTrace = [1, 3, 4, 5, 6, 7] ∧ ended firstTrace = [3, 4, 5, 6, 7, 1] ∧
      Nested 0 firstTrace ∧
      ∀ x ∈ ((start stagesRequest (packedWorld "east" "west")).takes
        sideBySide).world.recorder.openSpans, x.id ∉ begun firstTrace := by
  have hspans : begun firstTrace = [1, 3, 4, 5, 6, 7] ∧ ended firstTrace = [3, 4, 5, 6, 7, 1] := by
    decide +kernel
  have houtcome : (((start stagesRequest (packedWorld "east" "west")).takes
      sideBySide).outcome? 0).map (·.breaksOff stagesRequest) = some false := by decide +kernel
  obtain ⟨o, ho, hwhole⟩ := Option.map_eq_some_iff.mp houtcome
  have hsane : (packedWorld "east" "west").recorder.Sane := Trace.Recorder.sane_start
  obtain ⟨-, hbalanced, -⟩ := spans_of_outcome stagesRequest hsane sideBySide
    (show 0 < stagesRequest.files.length by decide) ho
  exact ⟨hspans.1, hspans.2, hbalanced hwhole⟩

/-- A file with a block that only repeats itself and cannot be reached. -/
def orphanText : String := "name = \"spin\"
[[block]]
label = \"a\"
kind = \"entry\"
[[block.op]]
op = \"return\"
[[block]]
label = \"b\"
kind = \"loop\"
[[block.op]]
op = \"goto\"
target = \"b\"
"

/-- The graph of this file. -/
def orphanGraph : Graph :=
  { (Graph.ofBlocks [(.entry, [.ret []]), (.loop, [.goto 1])]).toOption.getD (.empty .empty) with
    name := "spin".toUTF8 }

/-- A batch of this file alone, in which nothing is verified. -/
def orphanRequest : Request where
  files := ["spin.cfg.toml"]
  config := { Config.default with pipeline := { Pipeline.Settings.default with verify := false } }
  store? := none
  level := .phase
  parent := 0
  canceled := false

/-- The file by itself. -/
def orphanWorld : World :=
  ⟨⟨.directory [("spin.cfg.toml", .file orphanText.toUTF8)], []⟩, .start, #[], .empty⟩

theorem orphan_spec :
    Textual.decode orphanText.toUTF8 = .ok orphanGraph ∧
    (Pipeline.failure? (Pipeline.findings orphanRequest.config.pipeline orphanGraph)).any
      Pipeline.Failure.isBreach = true ∧
    GraphFormat.forPath "spin.cfg.toml" = .ok .text ∧
    orphanWorld.tree.read "spin.cfg.toml" = .ok orphanText.toUTF8 ∧
    orphanGraph.name.isEmpty = false ∧ orphanRequest.config.problems = [] := by
  simp only [Textual.decode, Textual.GraphEntry.ofBytes, Toml.Document.ofBytes?, Toml.characters?,
    toList_eq_data]
  decide +kernel

private theorem breaksOff_orphanRequest :
    (processFile orphanRequest orphanWorld "spin.cfg.toml").1.breaksOff orphanRequest = true := by
  obtain ⟨hdecode, hbreach, hformat, hread, hname, -⟩ := orphan_spec
  have hload : GraphFile.load orphanWorld.tree "spin.cfg.toml"
      = .ok (orphanGraph, orphanText.toUTF8) := load_text hformat hread hdecode hname
  suffices hcomes : Worker.Comes orphanRequest "spin.cfg.toml"
      (fun t phase ↦ t = orphanWorld.tree ∧ ∃ o, phase = .ended o ∧
        o.breaksOff orphanRequest = true) Worker.stepLimit orphanWorld.tree .waiting from
    hcomes.processFile.1
  refine .loaded hload (.succ fun _ _ hlooking ↦ ?_)
  cases hlooking with
  | found hs => cases hs
  | missed =>
    refine .succ fun _ _ hrunning ↦ ?_
    cases hrunning with
    | ran hok =>
      rw [hok] at hbreach
      cases hbreach
    | @broken _ _ f herror =>
      rw [herror] at hbreach
      have hshows : orphanRequest.level.showsStages = true := by decide
      refine .ended ⟨rfl, _, rfl, ?_⟩
      rw [Outcome.breaksOff, hshows, Bool.and_true]
      exact hbreach

/-- A stage that breaks a precondition leaves its span open for ever, although the worker has
ended. -/
theorem exists_open_span :
    ∃ q w turns o x, q.level = .phase ∧ q.canceled = false ∧ q.config.problems = [] ∧
      w.recorder = .start ∧ ((start q w).takes turns).outcome? 0 = some o ∧
      x ∈ ((start q w).takes turns).world.recorder.openSpans ∧
      x.id ∈ begun (shareOf 0 ((start q w).ledger World.trace turns)) ∧
      x.id ∉ ended (shareOf 0 ((start q w).ledger World.trace turns)) := by
  have ho := outcome?_takes_alone (q := orphanRequest) rfl orphanWorld
  obtain ⟨h, hi, hend⟩ := outcome?_eq_some.mp ho
  have hl := balanced_takes orphanRequest (w := orphanWorld) Trace.Recorder.sane_start alone
  have htrail := hl.trails 0 h hi
  rw [request_eq_of_takes orphanRequest orphanWorld (by decide) hi] at htrail
  cases htrail with
  | waiting phase => cases phase.symm.trans hend
  | hidden busy | busy busy => rw [hend] at busy; cases busy
  | whole phase whole =>
    cases phase.symm.trans hend
    exact absurd (whole.symm.trans breaksOff_orphanRequest) Bool.false_ne_true
  | @broken o x phase broke left scope name opens =>
    exact ⟨orphanRequest, orphanWorld, alone, _, x, rfl, rfl, orphan_spec.2.2.2.2.2, rfl, ho,
      (opens x left.mem_begun).mpr rfl, left.mem_begun,
      left.notMem_ended (hl.numbered.nodup 0)⟩

end Shop

end Flowgraph.Batch
