import Flowgraph.Batch.Inputs
import Flowgraph.Progress.Display
import Flowgraph.Proofs.Batch.Endings

/-!
# The display of interleaved reports

The display of a run receives the reports on all files in one sequence, in which the reports on each
file keep their order but may stand between those on other files. Such an interleaving is a list of
reports, each with the index of its file, of which the share of every index is the sequence of that
file: the report that the file is queued, and then what a worker sends until it ends.

A row takes note of the reports that are routed to it, and of nothing else (`rows_foldl`). Reports
are routed by path, and to the last row with the path. So a row whose path stands in no other row
ends with the state of its file, whatever the interleaving, and the last row of every path is
finished at the end. A row whose path is listed again further down is never reached
(`rows_of_interleaving`).
-/

namespace Flowgraph

open Pipeline (Event)
open Batch (Outcome Closed World shareOf)

/-! ## What is sent on a file

The reports on a file as they leave it: that it is queued, then what its worker reports, of which
only the last one closes the file. -/

namespace Batch

/-- The reports on a file that a worker of some batch sends until it ends, and its outcome. -/
def Sends (path : String) (o : Outcome) (es : List Event) : Prop :=
  ∃ q w turns i, q.files[i]? = some path ∧ ((Shop.start q w).takes turns).outcome? i = some o ∧
    shareOf i ((Shop.start q w).ledger World.reports turns) = es

theorem Sends.closed {path : String} {o : Outcome} {es : List Event} (h : Sends path o es) :
    o.path = path ∧ Closed o es := by
  obtain ⟨q, w, turns, i, hpath, ho, rfl⟩ := h
  obtain ⟨k, hi, hend⟩ := Shop.outcome?_eq_some.mp ho
  have hstart : (Shop.start q w).hands[i]? = some ⟨q, .fresh path⟩ := by
    rw [Shop.start, List.getElem?_map, hpath]
    rfl
  obtain ⟨k', hi', -, hpath', -⟩ := Shop.stepsLeft_takes turns hstart
  cases hi'.symm.trans hi
  cases Shop.story_takes (Shop.fresh_start q w) hi with
  | going _ unended => exact absurd hend (unended o)
  | ended phase same reports =>
    cases phase.symm.trans hend
    exact ⟨same.trans hpath', reports⟩

end Batch

namespace Progress

/-! ## Rows

A row that is finished stays as it is. Until then it takes over the stage and the status of every
report, so that at the end it shows what the closing report says. -/

/-- An event as it is reported, after some time. -/
def Report.of (e : Event) (elapsed : Duration) : Report :=
  ⟨e.file, e.stage.text, some e.status, e.failure?, elapsed⟩

/-- The reports are those of the events, at any times. -/
def Shows (rs : List Report) (es : List Event) : Prop :=
  List.Forall₂ (fun r e ↦ ∃ elapsed, r = Report.of e elapsed) rs es

/-- The row of a file that came to an outcome. -/
def Row.Matches (r : Row) (o : Outcome) : Prop :=
  r.state = (if o.failure?.isSome then .failed else .done) ∧
    (o.failure? = none → r.cached = o.cached)

namespace Row

variable {r : Row} {e : Event} {es : List Event} {rs : List Report} {o : Outcome}

@[simp] theorem path_apply (r : Row) (e : Report) : (r.apply e).path = r.path := by
  unfold apply
  split
  · rfl
  · dsimp only
    split
    all_goals try rfl
    split <;> rfl

theorem apply_of_finished (h : r.finished = true) (e : Report) : r.apply e = r := by
  rw [apply, if_pos h]

private theorem foldl_of_finished (h : r.finished = true) : ∀ rs : List Report, rs.foldl apply r = r
  | [] => rfl
  | e :: rs => by rw [List.foldl_cons, apply_of_finished h, foldl_of_finished h rs]

private theorem apply_of_open (h : r.finished = false) (he : e.closes = false)
    (elapsed : Duration) :
    (r.apply (.of e elapsed)).finished = false ∧
      ((r.apply (.of e elapsed)).cached = true ↔ r.cached = true ∨ e.status = .cached) := by
  obtain ⟨file, stage, status, failure?⟩ := e
  cases status <;> cases stage <;>
    simp_all [apply, finished, Report.of, Event.closes, Pipeline.Stage.text]

/-- A report that closes the file finishes the row. -/
theorem apply_of_closing (h : r.finished = false) (he : e.closes = true) (elapsed : Duration) :
    (r.apply (.of e elapsed)).state = (if e.status = .error then .failed else .done) ∧
      (r.apply (.of e elapsed)).cached = r.cached := by
  obtain ⟨file, stage, status, failure?⟩ := e
  cases status <;> cases stage <;>
    simp_all [apply, finished, Report.of, Event.closes, Pipeline.Stage.text]

private theorem foldl_of_open (hrs : Shows rs es) (hes : ∀ e ∈ es, e.closes = false) :
    ∀ {r : Row}, r.finished = false → (rs.foldl apply r).finished = false ∧
      ((rs.foldl apply r).cached = true ↔ r.cached = true ∨ ∃ e ∈ es, e.status = .cached) := by
  induction hrs with
  | nil => exact fun h ↦ ⟨h, by simp⟩
  | @cons x e rs es hx _ ih =>
    intro r hr
    obtain ⟨elapsed, rfl⟩ := hx
    obtain ⟨hopen, hcached⟩ := apply_of_open hr (hes e List.mem_cons_self) elapsed
    obtain ⟨hrest, hrest'⟩ := ih (fun e he ↦ hes e (List.mem_cons_of_mem _ he)) hopen
    refine ⟨hrest, hrest'.trans ?_⟩
    rw [hcached, or_assoc, List.exists_mem_cons_iff]

end Row

theorem Shows.concat (es : List Event) {rs : List Report} {e : Event} (h : Shows rs (es ++ [e])) :
    ∃ init elapsed, rs = init ++ [.of e elapsed] ∧ Shows init es := by
  have hreverse := List.forall₂_reverse_iff.mpr h
  rw [List.reverse_append, List.reverse_singleton, List.singleton_append] at hreverse
  cases hrs : rs.reverse with
  | nil => rw [hrs] at hreverse; cases hreverse
  | cons x init =>
    rw [hrs] at hreverse
    obtain ⟨⟨elapsed, rfl⟩, hinit⟩ := List.forall₂_cons.mp hreverse
    refine ⟨init.reverse, elapsed, ?_, ?_⟩
    · rw [← List.reverse_cons, ← hrs, List.reverse_reverse]
    · rw [Shows, ← List.forall₂_reverse_iff, List.reverse_reverse]
      exact hinit

private theorem Row.matches_foldl {path : String} {rs : List Report} {es : List Event} {o : Outcome}
    (hes : Closed o es) (hrs : Shows rs (⟨path, .load, .queued, none⟩ :: es)) :
    (rs.foldl Row.apply (.waiting path)).finished = true ∧
      (rs.foldl Row.apply (.waiting path)).Matches o := by
  obtain ⟨init, last, rfl, hinit, hlast, herror⟩ := hes.closing
  obtain ⟨before, elapsed, rfl, hbefore⟩ := Shows.concat (_ :: init) hrs
  obtain ⟨hopen, hcached⟩ := foldl_of_open hbefore (r := .waiting path)
    (List.forall_mem_cons.mpr ⟨rfl, hinit⟩) rfl
  obtain ⟨hstate, hkept⟩ := apply_of_closing hopen hlast elapsed
  rw [List.foldl_append, List.foldl_cons, List.foldl_nil]
  have hclosed : last.status ≠ .cached := by
    intro hstatus
    simp [Event.closes, hstatus] at hlast
  refine ⟨?_, ?_, fun hnone ↦ ?_⟩
  · rw [finished, hstate]
    split <;> rfl
  · rw [hstate]
    exact if_congr herror rfl rfl
  · rw [hkept, Bool.eq_iff_iff, hcached, hes.stored hnone]
    simp [waiting, hclosed]

private theorem Row.finished_foldl {rs : List Report} {e : Event} {elapsed : Duration}
    (hmem : .of e elapsed ∈ rs) (he : e.closes = true) (r : Row) :
    (rs.foldl Row.apply r).finished = true := by
  obtain ⟨before, after, rfl⟩ := List.append_of_mem hmem
  rw [List.foldl_append, List.foldl_cons]
  cases hr : (before.foldl Row.apply r).finished with
  | true => rwa [apply_of_finished hr, foldl_of_finished hr]
  | false =>
    have hfinished : ((before.foldl Row.apply r).apply (.of e elapsed)).finished = true := by
      rw [finished, (apply_of_closing hr he elapsed).1]
      split <;> rfl
    rwa [foldl_of_finished hfinished]

private theorem Shows.file_eq {rs : List Report} {es : List Event} {path : String} (h : Shows rs es)
    (hes : ∀ e ∈ es, e.file = path) : ∀ r ∈ rs, r.file = path := by
  induction h with
  | nil => exact fun _ hr ↦ absurd hr List.not_mem_nil
  | @cons x e rs es hx _ ih =>
    obtain ⟨elapsed, rfl⟩ := hx
    obtain ⟨he, hes⟩ := List.forall_mem_cons.mp hes
    exact List.forall_mem_cons.mpr ⟨he, ih hes⟩

private theorem shows_of_events (es : List Event) : Shows (es.map (Report.of · 0)) es := by
  rw [Shows, List.forall₂_map_left_iff, List.forall₂_same]
  exact fun e _ ↦ ⟨0, rfl⟩

/-! ## Routing

The row that a report goes to is the last one with the path of the report. So the rows can be
followed one at a time: each is what the reports routed to it have made of it. -/

def lastIndex (paths : List String) (path : String) : Option Nat :=
  (paths.reverse.findIdx? (· = path)).map fun i ↦ paths.length - 1 - i

private theorem lastIndex_concat (paths : List String) (p path : String) :
    lastIndex (paths ++ [p]) path
      = if p = path then some paths.length else lastIndex paths path := by
  rw [lastIndex, List.reverse_append, List.reverse_singleton, List.singleton_append,
    List.findIdx?_cons, List.length_append, List.length_singleton]
  by_cases hp : p = path
  · simp [hp]
  · rw [if_neg (by simpa using hp), if_neg hp, lastIndex, Option.map_map]
    congr 1
    funext i
    simp only [Function.comp_apply]
    omega

private theorem getElem?_concat_eq_some {paths : List String} {p path : String} {i : Nat} :
    (paths ++ [p])[i]? = some path ↔
      paths[i]? = some path ∨ i = paths.length ∧ p = path := by
  rcases Nat.lt_trichotomy i paths.length with hlt | rfl | hgt
  · rw [List.getElem?_append_left hlt, or_iff_left fun h ↦ absurd h.1 hlt.ne]
  · simp
  · rw [List.getElem?_eq_none (by simp; omega), List.getElem?_eq_none hgt.le]
    simp [hgt.ne']

/-- The last index of a path is where the path stands and after which it does not stand again. -/
theorem lastIndex_eq_some {paths : List String} {path : String} {i : Nat} :
    lastIndex paths path = some i ↔
      paths[i]? = some path ∧ ∀ j, i < j → paths[j]? ≠ some path := by
  induction paths using List.reverseRecOn with
  | nil => simp [lastIndex]
  | append_singleton paths p ih =>
    rw [lastIndex_concat]
    simp only [Ne, getElem?_concat_eq_some]
    by_cases hp : p = path
    · rw [if_pos hp, Option.some.injEq]
      constructor
      · rintro rfl
        refine ⟨Or.inr ⟨rfl, hp⟩, fun j hj ↦ not_or.mpr ⟨?_, fun h ↦ absurd h.1 hj.ne'⟩⟩
        rw [List.getElem?_eq_none hj.le]
        exact nofun
      · rintro ⟨hi | ⟨rfl, -⟩, hlast⟩
        · -- the path stands again at the end
          exact absurd (Or.inr ⟨rfl, hp⟩) (hlast _ (List.getElem?_eq_some_iff.mp hi).1)
        · rfl
    · rw [if_neg hp, ih]
      simp [hp]

namespace Display

variable {d : Display}

private theorem rowOf?_eq (d : Display) (file : String) :
    d.rowOf? file = lastIndex (d.rows.map Row.path) file := by
  rw [rowOf?, lastIndex, ← List.map_reverse, List.findIdx?_map, List.length_map]
  rfl

/-- What is routed to a row changes it, and nothing else does. -/
theorem getElem?_rows_apply (d : Display) (e : Report) (i : Nat) :
    (d.apply e).rows[i]? = d.rows[i]?.map fun r ↦
      if lastIndex (d.rows.map Row.path) e.file = some i then r.apply e else r := by
  rw [← rowOf?_eq, apply]
  cases d.rowOf? e.file with
  | none => simp
  | some j => simp [List.getElem?_modify, Option.map]

theorem map_path_apply (d : Display) (e : Report) :
    (d.apply e).rows.map Row.path = d.rows.map Row.path := by
  refine List.ext_getElem? fun i ↦ ?_
  rw [List.getElem?_map, getElem?_rows_apply, Option.map_map, List.getElem?_map]
  congr 1
  funext r
  simp only [Function.comp_apply]
  split
  · exact r.path_apply e
  · rfl

private theorem rows_foldl (i : Nat) : ∀ (rs : List Report) (d : Display),
    (rs.foldl apply d).rows[i]? = d.rows[i]?.map fun r ↦
      (rs.filter fun e ↦ lastIndex (d.rows.map Row.path) e.file = some i).foldl Row.apply r
  | [], d => by simp
  | e :: rs, d => by
    rw [List.foldl_cons, rows_foldl i rs, getElem?_rows_apply, map_path_apply, Option.map_map]
    congr 1
    funext r
    rw [List.filter_cons]
    simp only [Function.comp_apply, decide_eq_true_eq]
    split <;> rfl

private theorem length_foldl : ∀ (rs : List Report) (d : Display),
    (rs.foldl apply d).rows.length = d.rows.length
  | [], _ => rfl
  | e :: rs, d => by
    rw [List.foldl_cons, length_foldl rs, ← List.length_map Row.path, map_path_apply,
      List.length_map]

variable (title : String) {files : List String} {path : String} {i : Nat}

/-- The display of files after reports, of which each comes with the index of its file. -/
def after (title : String) (files : List String) (l : List (Nat × Report)) : Display :=
  (l.map Prod.snd).foldl apply (start title files)

private theorem length_rows_after (l : List (Nat × Report)) :
    (after title files l).rows.length = files.length := by
  rw [after, length_foldl, start, List.length_map]

theorem row_after (l : List (Nat × Report)) (hi : files[i]? = some path) :
    (after title files l).rows[i]? = some
      (((l.map Prod.snd).filter fun e ↦ lastIndex files e.file = some i).foldl Row.apply
        (.waiting path)) := by
  have hpaths : (files.map Row.waiting).map Row.path = files := by
    rw [List.map_map]
    exact List.map_id files
  rw [after, rows_foldl, start, hpaths, List.getElem?_map, hi]
  rfl

end Display

/-- An interleaving of what is sent on files, each of them first reported as queued: the share of
every index consists of the reports on its file. -/
structure Interleaves (files : List String) (outcome : Nat → Outcome) (l : List (Nat × Report)) :
    Prop where
  known : ∀ x ∈ l, x.1 < files.length
  sent : ∀ i path, files[i]? = some path → ∃ es, Batch.Sends path (outcome i) es ∧
    Shows (shareOf i l) (⟨path, .load, .queued, none⟩ :: es)

namespace Interleaves

variable {files : List String} {outcome : Nat → Outcome} {l : List (Nat × Report)} {i : Nat}
  {path : String}

theorem file_eq (h : Interleaves files outcome l) {x : Nat × Report} (hx : x ∈ l) :
    files[x.1]? = some x.2.file := by
  have hi := List.getElem?_eq_getElem (h.known x hx)
  obtain ⟨es, hsends, hshows⟩ := h.sent x.1 _ hi
  obtain ⟨hpath, hclosed⟩ := hsends.closed
  have hmem : x.2 ∈ shareOf x.1 l := by
    rw [shareOf, List.mem_map]
    exact ⟨x, List.mem_filter.mpr ⟨hx, by simp⟩, rfl⟩
  rw [hi, hshows.file_eq (List.forall_mem_cons.mpr ⟨rfl, fun e he ↦
    (hclosed.file_eq e he).trans hpath⟩) _ hmem]

variable (title : String)

/-- A row whose path is listed again below is never reached. -/
theorem row_of_again (l : List (Nat × Report)) (hi : files[i]? = some path) {j : Nat} (hij : i < j)
    (hj : files[j]? = some path) :
    (Display.after title files l).rows[i]? = some (.waiting path) := by
  have hnone : (l.map Prod.snd).filter (fun e ↦ lastIndex files e.file = some i) = [] := by
    rw [List.filter_eq_nil_iff]
    intro e _ hlast
    obtain ⟨he, hagain⟩ := lastIndex_eq_some.mp (of_decide_eq_true hlast)
    cases he.symm.trans hi
    exact hagain j hij hj
  rw [Display.row_after title l hi, hnone]
  rfl

private theorem row_of_last (h : Interleaves files outcome l) (hi : files[i]? = some path)
    (hlast : ∀ j, i < j → files[j]? ≠ some path) :
    ∃ r, (Display.after title files l).rows[i]? = some r ∧ r.finished = true := by
  obtain ⟨es, hsends, hshows⟩ := h.sent i path hi
  obtain ⟨init, last, rfl, -, hcloses, -⟩ := hsends.closed.2.closing
  obtain ⟨before, elapsed, hshare, -⟩ := Shows.concat (_ :: init) hshows
  have hmem : .of last elapsed ∈ shareOf i l := by
    rw [hshare]
    exact List.mem_append_right _ (List.mem_singleton_self _)
  rw [shareOf, List.mem_map] at hmem
  obtain ⟨x, hx, hreport⟩ := hmem
  obtain ⟨hx, hindex⟩ := List.mem_filter.mp hx
  have hfile := h.file_eq hx
  rw [of_decide_eq_true hindex, hi, Option.some.injEq] at hfile
  have hrouted : .of last elapsed ∈
      (l.map Prod.snd).filter fun e ↦ lastIndex files e.file = some i := by
    refine List.mem_filter.mpr ⟨List.mem_map.mpr ⟨x, hx, hreport⟩, decide_eq_true ?_⟩
    rw [← hreport, ← hfile]
    exact lastIndex_eq_some.mpr ⟨hi, hlast⟩
  exact ⟨_, Display.row_after title l hi, Row.finished_foldl hrouted hcloses _⟩

private theorem row_of_unique (h : Interleaves files outcome l) (hi : files[i]? = some path)
    (honce : ∀ j, j ≠ i → files[j]? ≠ some path) : (Display.after title files l).rows[i]?
      = some ((shareOf i l).foldl Row.apply (.waiting path)) := by
  have hshare : (l.map Prod.snd).filter (fun e ↦ lastIndex files e.file = some i)
      = shareOf i l := by
    -- routing by path comes to the same as routing by index, as the path stands nowhere else
    rw [List.filter_map, shareOf]
    refine congrArg _ (List.filter_congr fun x hx ↦ decide_eq_decide.mpr ?_)
    have hfile := h.file_eq hx
    rw [lastIndex_eq_some]
    constructor
    · rintro ⟨hix, -⟩
      cases hix.symm.trans hi
      by_contra hne
      exact honce _ hne hfile
    · intro hindex
      rw [hindex, hi] at hfile
      cases hfile
      exact ⟨hi, fun j hj ↦ honce j hj.ne'⟩
  rw [Display.row_after title l hi, hshare]

end Interleaves

/-- The rows after an interleaving of what is sent on files. There is one for each file. If its path
is listed again below, the row waits as in the beginning. If not, it is finished. If its path is
listed nowhere else, it shows the outcome of its file. When no path is listed twice, all rows are
finished, and they are the same for every interleaving. -/
theorem rows_of_interleaving (title : String) {files : List String} {outcome : Nat → Outcome}
    {l : List (Nat × Report)} (h : Interleaves files outcome l) :
    (Display.after title files l).rows.length = files.length ∧
    (∀ (i : Nat) (path : String), files[i]? = some path →
      ∃ r : Row, (Display.after title files l).rows[i]? = some r ∧
      ((∃ j, i < j ∧ files[j]? = some path) → r = .waiting path) ∧
      ((∀ j, i < j → files[j]? ≠ some path) → r.finished = true) ∧
      ((∀ j, j ≠ i → files[j]? ≠ some path) → r.Matches (outcome i))) ∧
    (files.Nodup → (∀ r ∈ (Display.after title files l).rows, r.finished = true) ∧
      ∀ l', Interleaves files outcome l' → (∀ i, shareOf i l' = shareOf i l) →
        (Display.after title files l').rows = (Display.after title files l).rows) := by
  have honce : files.Nodup → ∀ {i : Nat} {path : String}, files[i]? = some path →
      ∀ j, j ≠ i → files[j]? ≠ some path := by
    intro hnodup i path hi j hj hjpath
    exact hj ((List.getElem?_inj (List.getElem?_eq_some_iff.mp hi).1 hnodup).mp
      (hi.trans hjpath.symm)).symm
  refine ⟨Display.length_rows_after title l, fun i path hi ↦ ?_, fun hnodup ↦ ⟨fun r hr ↦ ?_, ?_⟩⟩
  · obtain ⟨r, hr⟩ : ∃ r, (Display.after title files l).rows[i]? = some r :=
      ⟨_, Display.row_after title l hi⟩
    refine ⟨r, hr, ?_, fun hlast ↦ ?_, fun hunique ↦ ?_⟩
    · rintro ⟨j, hij, hj⟩
      exact Option.some.inj (hr.symm.trans (Interleaves.row_of_again title l hi hij hj))
    · obtain ⟨r', hr', hfinished⟩ := h.row_of_last title hi hlast
      exact Option.some.inj (hr'.symm.trans hr) ▸ hfinished
    · obtain ⟨es, hsends, hshows⟩ := h.sent i path hi
      rw [Option.some.inj (hr.symm.trans (h.row_of_unique title hi hunique))]
      exact (Row.matches_foldl hsends.closed.2 hshows).2
  · obtain ⟨i, hi⟩ := List.getElem?_of_mem hr
    have hlt : i < files.length :=
      Display.length_rows_after title l ▸ (List.getElem?_eq_some_iff.mp hi).1
    have hpath := List.getElem?_eq_getElem hlt
    obtain ⟨r', hr', hfinished⟩ := h.row_of_last title hpath
      fun j hj ↦ honce hnodup hpath j hj.ne'
    exact Option.some.inj (hr'.symm.trans hi) ▸ hfinished
  · refine fun l' h' hshares ↦ List.ext_getElem? fun i ↦ ?_
    cases hi : files[i]? with
    | none =>
      have hge := List.getElem?_eq_none_iff.mp hi
      rw [List.getElem?_eq_none ((Display.length_rows_after title l').trans_le hge),
        List.getElem?_eq_none ((Display.length_rows_after title l).trans_le hge)]
    | some path =>
      rw [h.row_of_unique title hi (honce hnodup hi), h'.row_of_unique title hi (honce hnodup hi),
        hshares i]

/-! ## Batches interleave

The reports of a batch are such an interleaving, whatever the turns were. The sample has two workers
in turn, one of which succeeds while the file of the other is missing. -/

private theorem shareOf_flatMap_range {β : Type} (f : Nat → List β) (i n : Nat) :
    shareOf i ((List.range n).flatMap fun j ↦ (f j).map (j, ·)) = if i < n then f i else [] := by
  induction n with
  | zero => rfl
  | succ n ih =>
    rw [List.range_succ, List.flatMap_append, Batch.shareOf_append, ih, List.flatMap_singleton]
    rcases Nat.lt_trichotomy i n with hlt | rfl | hgt
    · rw [Batch.shareOf_map_of_ne hlt.ne', if_pos hlt, if_pos (hlt.trans (Nat.lt_succ_self n)),
        List.append_nil]
    · rw [Batch.shareOf_map_self, if_neg (lt_irrefl _), if_pos (Nat.lt_succ_self i),
        List.nil_append]
    · rw [Batch.shareOf_map_of_ne hgt.ne, if_neg hgt.not_gt, if_neg (by omega), List.append_nil]

private theorem shareOf_map {β γ : Type} (f : β → γ) (i : Nat) (l : List (Nat × β)) :
    shareOf i (l.map (Prod.map id f)) = (shareOf i l).map f := by
  rw [shareOf, shareOf, List.filter_map, List.map_map, List.map_map]
  rfl

/-- All files are reported as queued. -/
def queued (files : List String) : List (Nat × Event) :=
  (List.range files.length).flatMap fun i ↦
    [(⟨files.getD i "", .load, .queued, none⟩ : Event)].map (i, ·)

/-- The reports of a batch in the order in which they are sent. -/
def reports (q : Batch.Request) (w : World) (turns : List Batch.Turn) : List (Nat × Report) :=
  (queued q.files ++ (Batch.Shop.start q w).ledger World.reports turns).map
    (Prod.map id (Report.of · 0))

/-- What the workers of a batch come to. -/
def outcomes (q : Batch.Request) (w : World) (turns : List Batch.Turn) (i : Nat) : Outcome :=
  (((Batch.Shop.start q w).takes turns).outcome? i).getD ⟨"", none, "", false, none⟩

/-- The reports of a batch are an interleaving, whatever the turns, once all its workers have
ended. -/
theorem interleaves_reports (q : Batch.Request) (w : World) {turns : List Batch.Turn}
    (hturns : ∀ t ∈ turns, ∃ i calledOff, t = .work i calledOff)
    (hcount : ∀ i < q.files.length, Batch.Worker.stepLimit ≤ turns.countP (·.isBy i)) :
    Interleaves q.files (outcomes q w turns) (reports q w turns) where
  known x hx := by
    obtain ⟨y, hy, rfl⟩ := List.mem_map.mp hx
    rcases List.mem_append.mp hy with hy | hy
    · obtain ⟨i, hi, hy⟩ := List.mem_flatMap.mp hy
      obtain ⟨e, -, rfl⟩ := List.mem_map.mp hy
      exact List.mem_range.mp hi
    · have hlt := Batch.Shop.lt_of_mem_ledger hturns hy
      rwa [Batch.Shop.start, List.length_map] at hlt
  sent i path hi := by
    have hlt := (List.getElem?_eq_some_iff.mp hi).1
    have hstart : (Batch.Shop.start q w).hands[i]? = some ⟨q, .fresh path⟩ := by
      rw [Batch.Shop.start, List.getElem?_map, hi]
      rfl
    obtain ⟨h, o, hh, hend⟩ := Batch.Shop.exists_ended hstart (hcount i hlt)
    have ho : ((Batch.Shop.start q w).takes turns).outcome? i = some o :=
      Batch.Shop.outcome?_eq_some.mpr ⟨h, hh, hend⟩
    refine ⟨_, ⟨q, w, turns, i, hi, ?_, rfl⟩, ?_⟩
    · rw [outcomes, ho, Option.getD_some]
    · have hget : q.files.getD i "" = path := by
        rw [List.getD_eq_getElem?_getD, hi, Option.getD_some]
      rw [reports, shareOf_map, Batch.shareOf_append, queued, shareOf_flatMap_range, if_pos hlt,
        hget]
      exact shows_of_events _

/-- A batch of two files, of which the second is missing. -/
def pairRequest : Batch.Request :=
  { Batch.Shop.packedRequest with files := ["a/x.cfgb", "b/y.cfgb"] }

/-- What the workers of the two files come to, which take every step right after each other. -/
def pairOutcomes : Nat → Outcome :=
  outcomes pairRequest (Batch.Shop.packedWorld "east" "west") Batch.Shop.sideBySide

/-- What they report. -/
def pairReports : List (Nat × Report) :=
  reports pairRequest (Batch.Shop.packedWorld "east" "west") Batch.Shop.sideBySide

theorem sideBySide_spec :
    (∀ t ∈ Batch.Shop.sideBySide, ∃ i calledOff, t = .work i calledOff) ∧
      ∀ i < 2, Batch.Worker.stepLimit ≤ Batch.Shop.sideBySide.countP (·.isBy i) := by
  refine ⟨fun t ht ↦ ?_, by decide⟩
  obtain ⟨l, hl, ht⟩ := List.mem_flatten.mp ht
  rw [List.eq_of_mem_replicate hl, List.mem_pair] at ht
  rcases ht with rfl | rfl <;> exact ⟨_, _, rfl⟩

/-- The second file fails in the midst of the reports on the first one, which ends with success. -/
theorem rows_of_interleaving_pair :
    pairReports.map Prod.fst = [0, 1, 0, 1, 1, 0, 0, 0, 0, 0, 0, 0, 0, 0, 0, 0, 0] ∧
      Interleaves pairRequest.files pairOutcomes pairReports ∧
      (∀ r ∈ (Display.after "run" pairRequest.files pairReports).rows, r.finished = true) ∧
      ∃ r r', (Display.after "run" pairRequest.files pairReports).rows = [r, r'] ∧
        r.state = .done ∧ r'.state = .failed := by
  have hspec : pairReports.map Prod.fst = [0, 1, 0, 1, 1, 0, 0, 0, 0, 0, 0, 0, 0, 0, 0, 0, 0] ∧
      (pairOutcomes 0).failure?.isSome = false ∧ (pairOutcomes 1).failure?.isSome = true := by
    decide +kernel
  have hpair : Interleaves pairRequest.files pairOutcomes pairReports :=
    interleaves_reports pairRequest _ sideBySide_spec.1 sideBySide_spec.2
  obtain ⟨hlength, hrows, hfinished⟩ := rows_of_interleaving "run" hpair
  have honce : ∀ (i : Nat) (path : String), pairRequest.files[i]? = some path →
      ∀ j, j ≠ i → pairRequest.files[j]? ≠ some path := by
    intro i path hi j hj hpath
    exact hj ((List.getElem?_inj (List.getElem?_eq_some_iff.mp hi).1 (by decide)).mp
      (hi.trans hpath.symm)).symm
  obtain ⟨r, hr, -, -, hmatch⟩ := hrows 0 "a/x.cfgb" rfl
  obtain ⟨r', hr', -, -, hmatch'⟩ := hrows 1 "b/y.cfgb" rfl
  obtain ⟨hstate, -⟩ := hmatch (honce 0 _ rfl)
  obtain ⟨hstate', -⟩ := hmatch' (honce 1 _ rfl)
  rw [hspec.2.1] at hstate
  rw [hspec.2.2] at hstate'
  refine ⟨hspec.1, hpair, (hfinished (by decide)).1, r, r', ?_, hstate, hstate'⟩
  refine List.ext_getElem? fun i ↦ ?_
  match i with
  | 0 => exact hr
  | 1 => exact hr'
  | i + 2 => exact List.getElem?_eq_none (hlength.trans_le (Nat.le_add_left 2 i))

/-- A file that is given twice is listed twice, and one of its rows is never finished. -/
theorem exists_unfinished_row :
    ∃ t args files outcome l r, Batch.expand t args = .ok files ∧ Interleaves files outcome l ∧
      r ∈ (Display.after "run" files l).rows ∧ r.finished = false := by
  let q : Batch.Request := { pairRequest with files := ["a/x.cfg.toml", "a/x.cfg.toml"] }
  let w : World := Batch.Shop.packedWorld "east" "west"
  have htwice := interleaves_reports q w sideBySide_spec.1 sideBySide_spec.2
  have hrow := Interleaves.row_of_again "run" (reports q w Batch.Shop.sideBySide)
    (show q.files[0]? = some "a/x.cfg.toml" from rfl) Nat.zero_lt_one rfl
  exact ⟨Batch.Shop.sampleTree "x", ["a/x.cfg.toml", "a/x.cfg.toml"], _, _, _, _,
    by decide +kernel, htwice, List.mem_of_getElem? hrow, rfl⟩

end Progress

end Flowgraph
