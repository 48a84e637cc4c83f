import Flowgraph.Trace.Recorder
import Mathlib.Data.List.Nodup
import Mathlib.Order.Nat

/-!
# Spans that begin and end

The events of a trace are *nested* under a parent if every span that begins there ends as well,
after everything that began in it. `Recorder.Nests` says that a recorder went on by nested events
and has the same spans open as before. `Recorder.Leaves` is the one way in which it can fail to be
so: the events are nested but for a single span that began and did not end, and which stays open.

Numbers of spans are never given twice, so that what one party does with the spans that it began
does not concern the others. A recorder is *sane* if it has handed out the numbers of all spans that
are open.
-/

namespace Flowgraph.Trace

/-! ## Nested events

Nested events can be put one after the other and into each other. What begins in them also ends in
them, as often as it begins. -/

/-- The numbers of the spans that begin among events. -/
def begun (es : List Event) : List Nat := (es.filter (·.kind = .spanBegin)).map Event.span

/-- The numbers of the spans that end among events. -/
def ended (es : List Event) : List Nat := (es.filter (·.kind = .spanEnd)).map Event.span

/-- Every span that begins among the events has the given parent or begins inside another one, and
ends after all that begins inside it. -/
inductive Nested : Nat → List Event → Prop
  | nil (parent : Nat) : Nested parent []
  | other {parent : Nat} {e : Event} {es : List Event} (hbegin : e.kind ≠ .spanBegin)
    (hend : e.kind ≠ .spanEnd) (rest : Nested parent es) : Nested parent (e :: es)
  | span {parent : Nat} {b e : Event} {inner es : List Event} (begins : b.kind = .spanBegin)
    (under : b.parent = parent) (inside : Nested b.span inner) (ends : e.kind = .spanEnd)
    (same : e.span = b.span) (rest : Nested parent es) : Nested parent (b :: (inner ++ e :: es))

variable {p : Nat} {e : Event} {es es' : List Event} {r r' r₁ r₂ : Recorder} {x y : Span}

@[simp] theorem begun_nil : begun [] = [] := rfl

@[simp] theorem begun_append : begun (es ++ es') = begun es ++ begun es' := by
  rw [begun, List.filter_append, List.map_append, begun, begun]

@[simp] theorem ended_append : ended (es ++ es') = ended es ++ ended es' := by
  rw [ended, List.filter_append, List.map_append, ended, ended]

theorem begun_cons_of_begin (h : e.kind = .spanBegin) : begun (e :: es) = e.span :: begun es := by
  simp [begun, h]

theorem mem_begun_cons (h : e.kind = .spanBegin) : e.span ∈ begun (e :: es) := by
  rw [begun_cons_of_begin h]
  exact List.mem_cons_self

theorem begun_cons_of_ne (h : e.kind ≠ .spanBegin) : begun (e :: es) = begun es := by
  simp [begun, h]

private theorem ended_cons_of_end (h : e.kind = .spanEnd) :
    ended (e :: es) = e.span :: ended es := by
  simp [ended, h]

theorem ended_cons_of_ne (h : e.kind ≠ .spanEnd) : ended (e :: es) = ended es := by
  simp [ended, h]

theorem begin_ne_end : Kind.spanBegin ≠ Kind.spanEnd := by decide

theorem begun_end (h : e.kind = .spanEnd) : begun [e] = [] :=
  begun_cons_of_ne fun hkind ↦ begin_ne_end (hkind.symm.trans h)

namespace Nested

theorem append (h : Nested p es) (h' : Nested p es') : Nested p (es ++ es') := by
  induction h with
  | nil => exact h'
  | other hbegin hend _ ih => exact .other hbegin hend (ih h')
  | span begins under inside ends same _ _ ih =>
    rw [List.cons_append, List.append_assoc, List.cons_append]
    exact .span begins under inside ends same (ih h')

private theorem single (hbegin : e.kind ≠ .spanBegin) (hend : e.kind ≠ .spanEnd) : Nested p [e] :=
  .other hbegin hend (.nil p)

/-- Events without a span are nested under everything. -/
theorem of_begun_eq_nil {p' : Nat} (h : Nested p es) (hnone : begun es = []) : Nested p' es := by
  induction h with
  | nil => exact .nil p'
  | other hbegin hend _ ih =>
    rw [begun_cons_of_ne hbegin] at hnone
    exact .other hbegin hend (ih hnone)
  | span begins => rw [begun_cons_of_begin begins] at hnone; cases hnone

private theorem ended_perm (h : Nested p es) : (ended es).Perm (begun es) := by
  induction h with
  | nil => exact .nil
  | other hbegin hend _ ih => rwa [begun_cons_of_ne hbegin, ended_cons_of_ne hend]
  | @span _ b e _ _ begins _ _ ends same _ ihinner ihrest =>
    have hb : b.kind ≠ .spanEnd := fun hkind ↦ begin_ne_end (begins.symm.trans hkind)
    have he : e.kind ≠ .spanBegin := fun hkind ↦ begin_ne_end (hkind.symm.trans ends)
    rw [begun_cons_of_begin begins, ended_cons_of_ne hb, begun_append, ended_append,
      begun_cons_of_ne he, ended_cons_of_end ends, same]
    exact List.perm_middle.trans ((ihinner.append ihrest).cons _)

end Nested

/-- The events are nested but for the begin of one span. -/
def LeftOpen (parent id : Nat) (es : List Event) : Prop :=
  ∃ before b after, es = before ++ b :: after ∧ b.kind = .spanBegin ∧ b.span = id ∧
    Nested parent (before ++ after)

theorem LeftOpen.mem_begun {id : Nat} (h : LeftOpen p id es) : id ∈ begun es := by
  obtain ⟨before, b, after, rfl, hkind, rfl, -⟩ := h
  rw [begun_append]
  exact List.mem_append_right _ (mem_begun_cons hkind)

theorem LeftOpen.append_left {id : Nat} (h : Nested p es) (h' : LeftOpen p id es') :
    LeftOpen p id (es ++ es') := by
  obtain ⟨before, b, after, rfl, hkind, hspan, hnested⟩ := h'
  refine ⟨es ++ before, b, after, by rw [List.append_assoc], hkind, hspan, ?_⟩
  rw [List.append_assoc]
  exact h.append hnested

/-- A span that ends may have a span inside that does not. -/
theorem LeftOpen.span {id : Nat} {b e : Event} (begins : b.kind = .spanBegin)
    (under : b.parent = p) (inside : LeftOpen b.span id es) (ends : e.kind = .spanEnd)
    (same : e.span = b.span) : LeftOpen p id (b :: (es ++ [e])) := by
  obtain ⟨before, b', after, rfl, hkind, hspan, hnested⟩ := inside
  refine ⟨b :: before, b', after ++ [e], by simp, hkind, hspan, ?_⟩
  rw [List.cons_append, ← List.append_assoc]
  exact .span begins under hnested ends same (.nil p)

/-- The span that is left open never ends. -/
theorem LeftOpen.notMem_ended {id : Nat} (h : LeftOpen p id es) (hnodup : (begun es).Nodup) :
    id ∉ ended es := by
  obtain ⟨before, b, after, rfl, hkind, rfl, hnested⟩ := h
  have hb : b.kind ≠ .spanEnd := fun hend ↦ begin_ne_end (hkind.symm.trans hend)
  -- all other events are nested, so the number could only end if it began among them as well
  rw [begun_append, begun_cons_of_begin hkind, List.nodup_middle, ← begun_append] at hnodup
  rw [ended_append, ended_cons_of_ne hb, ← ended_append, hnested.ended_perm.mem_iff]
  exact (List.nodup_cons.mp hnodup).1

/-! ## Recording

How a recorder goes on while nested events are added: the same spans are open afterwards, and the
new numbers are larger than the old ones. -/

namespace Level

/-- Are the spans of the stages recorded? -/
def showsStages (l : Level) : Bool := l.enabled && l.takes .pass

/-- A level that takes the spans of stages takes those of files. -/
theorem showsStages_eq_false {l : Level} (h : (l.enabled && l.takes .driver) = false) :
    l.showsStages = false := by
  rw [Bool.and_eq_false_iff] at h
  rw [showsStages, Bool.and_eq_false_iff]
  refine h.imp_right fun h ↦ ?_
  rw [takes, Bool.and_eq_false_iff] at h ⊢
  refine Or.inr (decide_eq_false fun hpass ↦ ?_)
  rcases h with h | h
  · cases h
  · have hcoarse : Scope.driver.code ≤ Scope.pass.code := by decide
    exact of_decide_eq_false h (UInt8.le_trans hcoarse hpass)

end Level

namespace Recorder

/-- The numbers of all open spans have been handed out. -/
def Sane (r : Recorder) : Prop := ∀ x ∈ r.openSpans, x.id ≤ r.lastSpan

theorem Sane.notMem_of_lt (hs : r.Sane) (hx : r.lastSpan < x.id) : x ∉ r.openSpans := fun hmem ↦
  absurd (hs x hmem) (not_le.mpr hx)

theorem sane_start : start.Sane := fun _ hx ↦ absurd hx List.not_mem_nil

@[simp] theorem events_emit (r : Recorder) (e : Event) :
    (r.emit e).events = r.events ++ [{ e with seq := r.lastSeq + 1 }] := by
  simp [emit, events]

/-- The recorder got from `r` to `r'` by events nested under `p`, and no other spans are open than
before. -/
structure Nests (p : Nat) (r r' : Recorder) (es : List Event) : Prop where
  events : r'.events = r.events ++ es
  nested : Nested p es
  openSpans : r'.openSpans = r.openSpans
  le : r.lastSpan ≤ r'.lastSpan
  fresh : ∀ n ∈ begun es, r.lastSpan < n ∧ n ≤ r'.lastSpan
  nodup : (begun es).Nodup

/-- The recorder got from `r` to `r'` by events that are nested under `p` but for the begin of the
span `x`, which is open from then on. -/
structure Leaves (p : Nat) (r r' : Recorder) (es : List Event) (x : Span) : Prop where
  events : r'.events = r.events ++ es
  nested : LeftOpen p x.id es
  parent : x.parent = p
  openSpans : r'.openSpans = x :: r.openSpans
  le : r.lastSpan ≤ r'.lastSpan
  fresh : ∀ n ∈ begun es, r.lastSpan < n ∧ n ≤ r'.lastSpan
  nodup : (begun es).Nodup

theorem Nests.refl (p : Nat) (r : Recorder) : Nests p r r [] where
  events := (List.append_nil _).symm
  nested := .nil p
  openSpans := rfl
  le := le_rfl
  fresh := fun _ hn ↦ absurd hn List.not_mem_nil
  nodup := List.nodup_nil

/-- Numbers that were handed out one after the other are not the same. -/
theorem fresh_append (hle : r.lastSpan ≤ r₁.lastSpan) (hle' : r₁.lastSpan ≤ r'.lastSpan)
    (h : ∀ n ∈ begun es, r.lastSpan < n ∧ n ≤ r₁.lastSpan)
    (h' : ∀ n ∈ begun es', r₁.lastSpan < n ∧ n ≤ r'.lastSpan) :
    ∀ n ∈ begun (es ++ es'), r.lastSpan < n ∧ n ≤ r'.lastSpan := by
  intro n hn
  rw [begun_append, List.mem_append] at hn
  rcases hn with hn | hn
  · exact ⟨(h n hn).1, (h n hn).2.trans hle'⟩
  · exact ⟨hle.trans_lt (h' n hn).1, (h' n hn).2⟩

theorem nodup_append (h : ∀ n ∈ begun es, n ≤ r₁.lastSpan)
    (h' : ∀ n ∈ begun es', r₁.lastSpan < n) (hes : (begun es).Nodup) (hes' : (begun es').Nodup) :
    (begun (es ++ es')).Nodup := by
  rw [begun_append]
  exact hes.append hes' fun n hn hn' ↦ absurd (h n hn) (not_le.mpr (h' n hn'))

theorem Nests.trans (h : Nests p r r₁ es) (h' : Nests p r₁ r' es') : Nests p r r' (es ++ es') where
  events := by rw [h'.events, h.events, List.append_assoc]
  nested := h.nested.append h'.nested
  openSpans := h'.openSpans.trans h.openSpans
  le := h.le.trans h'.le
  fresh := fresh_append h.le h'.le h.fresh h'.fresh
  nodup := nodup_append (fun n hn ↦ (h.fresh n hn).2) (fun n hn ↦ (h'.fresh n hn).1) h.nodup
    h'.nodup

theorem Nests.leaves (h : Nests p r r₁ es) (h' : Leaves p r₁ r' es' x) :
    Leaves p r r' (es ++ es') x where
  events := by rw [h'.events, h.events, List.append_assoc]
  nested := .append_left h.nested h'.nested
  parent := h'.parent
  openSpans := by rw [h'.openSpans, h.openSpans]
  le := h.le.trans h'.le
  fresh := fresh_append h.le h'.le h.fresh h'.fresh
  nodup := nodup_append (fun n hn ↦ (h.fresh n hn).2) (fun n hn ↦ (h'.fresh n hn).1) h.nodup
    h'.nodup

/-! ## Points

A point is an event of its own and opens nothing. -/

/-- The recorder got from `r` to `r'` by points alone. -/
inductive Pointed (r : Recorder) : Recorder → Prop
  | refl : Pointed r r
  | point {r' : Recorder} (level : Level) (scope : Scope) (name : String) (parent : Nat)
    (detail : String) (h : Pointed r r') : Pointed r (r'.point level scope name parent detail)

theorem Pointed.trans (h : Pointed r r₁) (h' : Pointed r₁ r') : Pointed r r' := by
  induction h' with
  | refl => exact h
  | point level scope name parent detail _ ih => exact .point level scope name parent detail ih

theorem nests_point (p : Nat) (r : Recorder) (level : Level) (scope : Scope) (name : String)
    (parent : Nat) (detail : String) :
    ∃ es, Nests p r (r.point level scope name parent detail) es ∧ begun es = [] := by
  have hother : Kind.point ≠ .spanBegin ∧ Kind.point ≠ .spanEnd := by decide
  rw [point]
  split
  · refine ⟨_, ⟨events_emit _ _, .single hother.1 hother.2, rfl, le_rfl, ?_, ?_⟩, ?_⟩
    all_goals simp [begun, hother.1]
  · exact ⟨[], .refl p r, rfl⟩

theorem Pointed.nests (h : Pointed r r') (p : Nat) : ∃ es, Nests p r r' es ∧ begun es = [] := by
  induction h with
  | refl => exact ⟨[], .refl p r, rfl⟩
  | point level scope name parent detail _ ih =>
    obtain ⟨es, hes, hnone⟩ := ih
    obtain ⟨es', hes', hnone'⟩ := nests_point p _ level scope name parent detail
    exact ⟨es ++ es', hes.trans hes', by rw [begun_append, hnone, hnone', List.append_nil]⟩

/-! ## Begin and end

A span that begins is open until it ends, and what is recorded in between is nested in it. A level
that does not show a span records neither its begin nor its end. -/

/-- Beginning a span took the recorder from `r` to `r'`, which has the span `x` open and emitted its
begin `b`. -/
structure Begins (r : Recorder) (scope : Scope) (name : String) (p : Nat) (r' : Recorder) (x : Span)
    (b : Event) : Prop where
  id : x.id = r.lastSpan + 1
  scope_eq : x.scope = scope
  name_eq : x.name = name
  parent : x.parent = p
  kind : b.kind = .spanBegin
  span : b.span = x.id
  under : b.parent = p
  events : r'.events = r.events ++ [b]
  openSpans : r'.openSpans = x :: r.openSpans
  lastSpan : r'.lastSpan = r.lastSpan + 1

/-- A span begins if the level takes its scope, and otherwise nothing happens. -/
theorem begin_cases (r : Recorder) (level : Level) (scope : Scope) (name : String) (p : Nat) :
    (level.enabled && level.takes scope) = true ∧ (∃ b, Begins r scope name p
      (r.begin level scope name p).1 (r.begin level scope name p).2 b) ∨
    (level.enabled && level.takes scope) = false ∧
      r.begin level scope name p = (r, .discarded) := by
  cases htaken : level.enabled && level.takes scope with
  | false => exact Or.inr ⟨rfl, by rw [begin, htaken]; rfl⟩
  | true =>
    refine Or.inl ⟨rfl, ?_⟩
    rw [begin, htaken]
    exact ⟨_, rfl, rfl, rfl, rfl, rfl, rfl, rfl, events_emit _ _, rfl, rfl⟩

theorem finish_discarded (r : Recorder) (detail : String) : r.finish .discarded detail = r := rfl

/-- Ending a span emits its end and takes it from the open ones. -/
theorem exists_finish (r : Recorder) (hx : x.id ≠ 0) (detail : String) :
    ∃ e : Event, e.kind = .spanEnd ∧ e.span = x.id ∧ e.name = x.name ∧
      (r.finish x detail).events = r.events ++ [e] ∧
      (r.finish x detail).openSpans = r.openSpans.filter (·.id ≠ x.id) ∧
      (r.finish x detail).lastSpan = r.lastSpan := by
  rw [finish, if_neg hx]
  exact ⟨_, rfl, rfl, rfl, events_emit _ _, rfl, rfl⟩

namespace Begins

variable {scope : Scope} {name : String} {b : Event}

theorem lt_id (hb : Begins r scope name p r₁ x b) (hs : r.Sane) (hy : y ∈ r.openSpans) :
    y.id < x.id := by
  rw [hb.id]
  exact Nat.lt_succ_of_le (hs y hy)

/-- What is numbered inside a span comes after its own number. -/
theorem fresh (hb : Begins r scope name p r₁ x b) (hle : r₁.lastSpan ≤ r'.lastSpan)
    (h : ∀ n ∈ begun es, r₁.lastSpan < n ∧ n ≤ r'.lastSpan) :
    (∀ n ∈ begun (b :: es), r.lastSpan < n ∧ n ≤ r'.lastSpan) ∧ x.id ∉ begun es := by
  have hid := hb.id
  have hlast := hb.lastSpan
  refine ⟨fun n hn ↦ ?_, fun hmem ↦ ?_⟩
  · rw [begun_cons_of_begin hb.kind, hb.span, List.mem_cons] at hn
    rcases hn with rfl | hn
    · omega
    · have := h n hn
      omega
  · have := h _ hmem
    omega

/-- A span that ends after what is nested in it is itself nested under its parent. -/
theorem nests (hb : Begins r scope name p r₁ x b) (hs : r.Sane) (h : Nests x.id r₁ r₂ es)
    (detail : String) : ∃ es', Nests p r (r₂.finish x detail) es' := by
  obtain ⟨e, hkind, hspan, -, hevents, hopen, hlast⟩ :=
    exists_finish r₂ (x := x) (by rw [hb.id]; exact Nat.succ_ne_zero _) detail
  obtain ⟨hfresh, hnew⟩ := hb.fresh h.le h.fresh
  have hbegun : begun (b :: (es ++ [e])) = begun (b :: es) := by
    rw [← List.cons_append, begun_append, begun_end hkind, List.append_nil]
  exact ⟨b :: (es ++ [e]), {
    events := by
      rw [hevents, h.events, hb.events, List.append_assoc, List.append_assoc]
      rfl
    nested := by
      refine .span hb.kind hb.under ?_ hkind (hspan.trans hb.span.symm) (.nil p)
      rw [hb.span]
      exact h.nested
    openSpans := by
      rw [hopen, h.openSpans, hb.openSpans, List.filter_cons_of_neg (by simp), List.filter_eq_self]
      intro y hy
      simpa using (hb.lt_id hs hy).ne
    le := by
      rw [hlast]
      exact (Nat.le_succ _).trans (hb.lastSpan.symm.le.trans h.le)
    fresh := by
      rw [hbegun, hlast]
      exact hfresh
    nodup := by
      rw [hbegun, begun_cons_of_begin hb.kind, hb.span, List.nodup_cons]
      exact ⟨hnew, h.nodup⟩ }⟩

/-- A span that never ends is left open. -/
theorem leaves (hb : Begins r scope name p r₁ x b) (h : Nests x.id r₁ r₂ es)
    (hnone : begun es = []) : Leaves p r r₂ (b :: es) x where
  events := by rw [h.events, hb.events, List.append_assoc]; rfl
  nested := ⟨[], b, es, rfl, hb.kind, hb.span, h.nested.of_begun_eq_nil hnone⟩
  parent := hb.parent
  openSpans := h.openSpans.trans hb.openSpans
  le := (Nat.le_succ _).trans (hb.lastSpan.symm.le.trans h.le)
  fresh := (hb.fresh h.le h.fresh).1
  nodup := by
    rw [begun_cons_of_begin hb.kind, hnone]
    exact List.nodup_singleton _

end Begins

/-! ## Spans of several parties

What others record in between has numbers of its own. So for one party it makes no difference that
the trace is shared. -/

/-- The recorder got from `r` to `r'` by the events of a party that has begun spans with given
numbers before. The spans of others are open as before. -/
structure Grows (own : List Nat) (r r' : Recorder) (es : List Event) : Prop where
  events : r'.events = r.events ++ es
  sane : r'.Sane
  le : r.lastSpan ≤ r'.lastSpan
  fresh : ∀ n ∈ begun es, r.lastSpan < n ∧ n ≤ r'.lastSpan
  nodup : (begun es).Nodup
  others : ∀ y : Span, y.id ≤ r.lastSpan → y.id ∉ own → (y ∈ r'.openSpans ↔ y ∈ r.openSpans)

variable {own : List Nat}

theorem Nests.sane (h : Nests p r r' es) (hs : r.Sane) : r'.Sane := by
  intro x hx
  rw [h.openSpans] at hx
  exact (hs x hx).trans h.le

theorem Nests.grows (h : Nests p r r' es) (hs : r.Sane) : Grows own r r' es where
  events := h.events
  sane := h.sane hs
  le := h.le
  fresh := h.fresh
  nodup := h.nodup
  others y _ _ := by rw [h.openSpans]

theorem Leaves.grows (h : Leaves p r r' es x) (hs : r.Sane) : Grows own r r' es where
  events := h.events
  sane y hy := by
    rw [h.openSpans, List.mem_cons] at hy
    rcases hy with rfl | hy
    · exact (h.fresh _ h.nested.mem_begun).2
    · exact (hs y hy).trans h.le
  le := h.le
  fresh := h.fresh
  nodup := h.nodup
  others y hy _ := by
    rw [h.openSpans, List.mem_cons, or_iff_right]
    rintro rfl
    exact absurd (h.fresh _ h.nested.mem_begun).1 (not_lt.mpr hy)

theorem Begins.grows {scope : Scope} {name : String} {b : Event} (h : Begins r scope name p r' x b)
    (hs : r.Sane) : Grows own r r' [b] where
  events := h.events
  sane y hy := by
    rw [h.openSpans, List.mem_cons] at hy
    rw [h.lastSpan]
    rcases hy with rfl | hy
    · exact h.id.le
    · exact (hs y hy).trans (Nat.le_succ _)
  le := h.lastSpan ▸ Nat.le_succ _
  fresh n hn := by
    rw [begun_cons_of_begin h.kind, begun_nil, List.mem_singleton, h.span, h.id] at hn
    rw [hn, h.lastSpan]
    exact ⟨Nat.lt_succ_self _, le_rfl⟩
  nodup := by
    rw [begun_cons_of_begin h.kind, begun_nil]
    exact List.nodup_singleton _
  others y hy _ := by
    rw [h.openSpans, List.mem_cons, or_iff_right]
    rintro rfl
    exact absurd (h.id.symm.le.trans hy) (Nat.not_succ_le_self _)

/-- A party ends one of its spans. -/
theorem Grows.finish (h : Grows own r r₁ es) (hown : x.id ∈ own) (hx : x.id ≠ 0) (detail : String) :
    ∃ e, e.kind = .spanEnd ∧ e.span = x.id ∧ Grows own r (r₁.finish x detail) (es ++ [e]) ∧
      ∀ y, y ∈ (r₁.finish x detail).openSpans ↔ y ∈ r₁.openSpans ∧ y.id ≠ x.id := by
  obtain ⟨e, hkind, hspan, -, hevents, hopen, hlast⟩ := exists_finish r₁ hx detail
  have hmem : ∀ y, y ∈ (r₁.finish x detail).openSpans ↔ y ∈ r₁.openSpans ∧ y.id ≠ x.id := by
    simp [hopen]
  have hbegun : begun (es ++ [e]) = begun es := by
    rw [begun_append, begun_end hkind, List.append_nil]
  exact ⟨e, hkind, hspan, {
    events := by rw [hevents, h.events, List.append_assoc]
    sane := fun y hy ↦ hlast ▸ h.sane y ((hmem y).mp hy).1
    le := hlast ▸ h.le
    fresh := by
      rw [hbegun, hlast]
      exact h.fresh
    nodup := by
      rw [hbegun]
      exact h.nodup
    others := fun y hy hnot ↦ by
      rw [hmem, h.others y hy hnot, and_iff_left]
      intro heq
      exact hnot (heq ▸ hown) }, hmem⟩

end Recorder

end Flowgraph.Trace
