import Flowgraph.Proofs.Batch.Outputs
import Flowgraph.Proofs.Cache.Restoring

/-!
# Results from the store are the results of runs

Workers of any number of batches share a store that was empty at first. A worker that finds a result
there takes it in place of a run. `exists_run_of_ended` says that nobody can tell: the result of
every worker that ends with success is the one that a run comes to for the graph that this worker
loaded, under its settings.

## The invariant

At every point of a history each entry of the store is the record of what a run came to for a graph
that some worker loaded, and its key is made of the bytes of that file, the name of the graph and
the settings. A worker looks under a key of its own. Where the hash tells apart what it is given, a
hit is a record for the same bytes, name and settings, so for the same graph.

Between loading and storing the file may change, and so may the file that the other worker loaded.
This does no harm, as both keys are made of the bytes that were read.

That the graphs are the same takes loading as a function of the bytes, which it is here: a text is
read in the order of the document. A reader of texts that lets any of several keys win that are
equal up to case gives one graph or the other for such a text, and the results of the two loads may
then differ.
-/

namespace Flowgraph.Batch

open Files (EndsIn Tree)
open Cache (Payload)

variable {q : Request} {path : String} {t t' : Tree} {phase phase' : Phase} {s : Cache.Store}
  {key : ByteArray} {bytes : ByteArray} {g : Graph}

/-! ## Entries that a step adds

Of the three steps that write files only one can write an entry of the store. Directories change no
file, and an output has another name than an entry, so an entry that is there after a step was there
before or is the one that the step stored under its key. -/

private theorem entry_of_changes {P : Files.Place → Prop} (h : Tree.Changes P t t')
    (hP : ¬P (t.placeOf (s.pathOf key))) (hentry : s.entryAt t' key = some (.file bytes)) :
    s.entryAt t key = some (.file bytes) := by
  rw [Cache.Store.entryAt, h.placeOf_eq] at hentry
  exact h.file hentry hP

/-- The place ends in the name of an output. -/
def IsOutputPlace (path : String) (p : Files.Place) : Prop :=
  ∃ (before : Files.Place) (f : GraphFormat), p = before ++ [outputName path f]

/-- An output is never at the place of an entry, since their names differ. -/
private theorem IsOutputPlace.ne {p : Files.Place} (h : IsOutputPlace path p) (s : Cache.Store)
    (key : ByteArray) (t : Tree) : t.placeOf (s.pathOf key) ≠ p := by
  obtain ⟨before, f, rfl⟩ := h
  obtain ⟨before', hplace, -⟩ := Tree.exists_placeOf (endsIn_pathOf s key) t
  rw [hplace]
  intro heq
  exact keyName_ne_outputName key path f (List.singleton_inj.mp (List.append_inj_right' heq rfl))

/-- An output is opened at a place of its own, or no file is changed. -/
theorem openOutput_changes {c : Config} {res : Except Failure (Option GraphFile.Opened)}
    (h : Worker.openOutput c t path g = (res, t')) :
    (∃ output, res = .ok (some output) ∧ IsOutputPlace path output.place ∧
      Tree.Changes (· = output.place) t t') ∨
    (∀ output, res ≠ .ok (some output)) ∧ Tree.Changes (fun _ ↦ False) t t' := by
  rcases openOutput_cases c t path g with
    ⟨-, hno⟩ | ⟨f, output, t₁, -, hok, houtput, -, hchanges, -⟩ | ⟨e, t₁, herror, hchanges⟩
  · cases h.symm.trans hno
    exact Or.inr ⟨nofun, .refl _ t⟩
  · cases h.symm.trans hok
    obtain ⟨before, hplace, -⟩ := Tree.exists_placeOf
      (endsIn_outputPath c.output.directory path f) t
    exact Or.inl ⟨output, rfl, ⟨before, f, by rw [houtput, hplace]⟩, hchanges⟩
  · cases h.symm.trans herror
    exact Or.inr ⟨nofun, hchanges⟩

/-- The output of a worker that has opened it is at the place of an output. -/
def Phase.Aims (path : String) : Phase → Prop
  | .filling _ _ output => IsOutputPlace path output.place
  | _ => True

private theorem Advance.aims (h : Advance q path t phase t' phase') : phase'.Aims path := by
  cases h with
  | opened hopen =>
    rcases openOutput_changes hopen with ⟨output, hok, hplace, -⟩ | ⟨hnot, -⟩
    · cases hok
      exact hplace
    · exact absurd rfl (hnot _)
  | _ => trivial

private theorem Advance.entry_cases (hstore : q.store? = none ∨ q.store? = some s)
    (h : Advance q path t phase t' phase') (haims : phase.Aims path)
    (hentry : s.entryAt t' key = some (.file bytes)) :
    s.entryAt t key = some (.file bytes) ∨
      ∃ r, phase = .storing r (some key) ∧ bytes = (Payload.ofResult r).encode := by
  have hopen : ∀ {res : Except Failure (Option GraphFile.Opened)} {r : Pipeline.Result} {t' : Tree},
      Worker.openOutput q.config t path r.graph = (res, t') →
      s.entryAt t' key = some (.file bytes) → s.entryAt t key = some (.file bytes) := by
    intro res r t' hres hentry
    rcases openOutput_changes hres with ⟨output, -, hplace, hchanges⟩ | ⟨-, hchanges⟩
    · exact entry_of_changes hchanges (hplace.ne s key t) hentry
    · exact entry_of_changes hchanges id hentry
  cases h with
  | started | unloaded _ | loaded _ | found _ _ _ | missed _ _ | ran _ | broken _ | unstored _
  | idle => exact Or.inl hentry
  | unasked hres | opened hres | unopened hres => exact Or.inl (hopen hres hentry)
  | filled => exact Or.inl (entry_of_changes (Tree.changes_fill ..) (haims.ne s key t) hentry)
  | @stored r s' key' hs =>
    obtain rfl : s = s' := by
      rcases hstore with hnone | hsome
      · cases hnone.symm.trans hs
      · exact Option.some.inj (hsome.symm.trans hs)
    rcases insert_changes s t key' (.ofResult r) with
      ⟨t₁, hinsert, hchanges, hread⟩ | ⟨e, t₁, hinsert, hchanges⟩
    · rw [hinsert] at hentry
      by_cases hkey : key = key'
      · subst hkey
        have hfile := (Tree.read_eq_ok_iff.mp hread).2
        rw [Cache.Store.entryAt, hfile] at hentry
        cases hentry
        exact Or.inr ⟨r, rfl, rfl⟩
      · refine Or.inl (entry_of_changes hchanges ?_ hentry)
        exact Tree.placeOf_ne (endsIn_pathOf s key) (endsIn_pathOf s key')
          (fun hname ↦ hkey (keyName_inj hname)) t
    · rw [hinsert] at hentry
      exact Or.inl (entry_of_changes hchanges id hentry)

/-! ## What a worker holds

From loading to its end a worker carries a graph, a run or a result with it. `Phase.Holds` says how
these go together in each phase: what is run is what was loaded, and what is stored or handed over
is what a run of it comes to. A step keeps this if what is found in the store is trustworthy, which
is where the invariant on entries comes in. -/

/-- What a worker holds in a phase belongs to a graph with bytes of which `J` is true, and a result
is what a run comes to for the graph. -/
def Phase.Holds (J : Graph → ByteArray → Prop) (cfg : Pipeline.Settings) (path : String) :
    Phase → Prop
  | .waiting | .loading => True
  | .looking g bytes => J g bytes
  | .running g key? => ∃ bytes, J g bytes ∧ ∀ key ∈ key?, key = Digest.resultKey bytes g.name cfg
  | .storing r key? => ∃ g bytes, J g bytes ∧ Pipeline.findings cfg g = .ok r.findings ∧
      ∀ key ∈ key?, key = Digest.resultKey bytes g.name cfg
  | .writing r _ | .filling r _ _ =>
    ∃ g bytes, J g bytes ∧ Pipeline.findings cfg g = .ok r.findings
  | .ended o => o.failure? = none → o.path = path ∧ ∃ r g bytes, o.result? = some r ∧ J g bytes ∧
      Pipeline.findings cfg g = .ok r.findings

theorem Phase.Holds.mono {J J' : Graph → ByteArray → Prop} {cfg : Pipeline.Settings}
    (h : phase.Holds J cfg path) (hJ : ∀ g bytes, J g bytes → J' g bytes) :
    phase.Holds J' cfg path := by
  cases phase with
  | waiting | loading => trivial
  | looking g bytes => exact hJ g bytes h
  | running g key? =>
    obtain ⟨bytes, hload, hkey⟩ := h
    exact ⟨bytes, hJ _ _ hload, hkey⟩
  | storing r key? =>
    obtain ⟨g, bytes, hload, hrest⟩ := h
    exact ⟨g, bytes, hJ _ _ hload, hrest⟩
  | writing r _ | filling r _ _ =>
    obtain ⟨g, bytes, hload, hfindings⟩ := h
    exact ⟨g, bytes, hJ _ _ hload, hfindings⟩
  | ended o =>
    intro hnone
    obtain ⟨hpath, r, g, bytes, hr, hload, hfindings⟩ := h hnone
    exact ⟨hpath, r, g, bytes, hr, hJ _ _ hload, hfindings⟩

private theorem Advance.holds {J : Graph → ByteArray → Prop} (h : Advance q path t phase t' phase')
    (hold : phase.Holds J q.config.pipeline path)
    (hload : ∀ g bytes, phase = .loading → GraphFile.load t path = .ok (g, bytes) → J g bytes)
    (hfound : ∀ g bytes s r, phase = .looking g bytes → q.store? = some s →
      Worker.stored s t (Digest.resultKey bytes g.name q.config.pipeline) = .ok (some r) →
        Pipeline.findings q.config.pipeline g = .ok r.findings) :
    phase'.Holds J q.config.pipeline path := by
  cases h with
  | started => trivial
  | unloaded _ | broken _ | unopened _ =>
    intro hnone
    cases hnone
  | loaded hok => exact hload _ _ rfl hok
  | @found g bytes s r hs _ hr => exact ⟨g, bytes, hold, hfound g bytes s r rfl hs hr⟩
  | @missed g bytes key? hkey =>
    refine ⟨bytes, hold, fun key hmem ↦ ?_⟩
    rw [hkey, Request.key?] at hmem
    split at hmem
    · exact (Option.some.inj hmem).symm
    · cases hmem
  | @ran g key? r hfindings =>
    obtain ⟨bytes, hJ, hkey⟩ := hold
    exact ⟨g, bytes, hJ, hfindings, hkey⟩
  | unstored _ | stored _ =>
    obtain ⟨g, bytes, hJ, hfindings, -⟩ := hold
    exact ⟨g, bytes, hJ, hfindings⟩
  | opened _ => exact hold
  | @unasked _ r _ _ | @filled r _ _ =>
    obtain ⟨g, bytes, hJ, hfindings⟩ := hold
    exact fun _ ↦ ⟨rfl, r, g, bytes, rfl, hJ, hfindings⟩
  | idle => exact hold

/-! ## Histories with a shared store

`Sharing` collects what is asked of a history: the store was empty, the edits by others add nothing
to it, every request eliminates dead code, the hash tells apart what it is given, and what is stored
can be read again. `Honest` says that all entries are justified and all workers hold what they
should. It is proved for every point of the history by induction on the moves. -/

namespace Shop

variable {s₀ : Shop} {moves pre : List Move} {i : Nat} {h : Hand}

/-- At some point of a history the worker at an index loaded a graph, as the files were then. -/
def Loaded (s₀ : Shop) (moves : List Move) (i : Nat) (q : Request) (path : String) (g : Graph)
    (bytes : ByteArray) : Prop :=
  ∃ before, before ++ [.work i] <+: moves ∧
    (∃ h, (s₀.run before).hands[i]? = some h ∧ h.request = q ∧ h.worker.path = path ∧
      h.worker.phase = .loading) ∧
    GraphFile.load (s₀.run before).world.tree path = .ok (g, bytes)

theorem Loaded.mono {moves' : List Move} (h : Loaded s₀ moves i q path g bytes)
    (hmoves : moves <+: moves') : Loaded s₀ moves' i q path g bytes := by
  obtain ⟨before, hbefore, hrest⟩ := h
  exact ⟨before, hbefore.trans hmoves, hrest⟩

/-- At some point of a history a worker of a request has read bytes with a graph. -/
def Reads (s₀ : Shop) (moves : List Move) (q : Request) (g : Graph) (bytes : ByteArray) : Prop :=
  ∃ before h, before <+: moves ∧ h ∈ (s₀.run before).hands ∧ h.request = q ∧
    h.worker.phase = .looking g bytes

theorem Loaded.reads (hload : Loaded s₀ moves i q path g bytes) : Reads s₀ moves q g bytes := by
  obtain ⟨before, hbefore, ⟨h, hi, rfl, rfl, hphase⟩, hok⟩ := hload
  obtain ⟨k, hw⟩ := worked_of_work hi
  refine ⟨before ++ [.work i], ⟨h.request, k⟩, hbefore, ?_, rfl, ?_⟩
  · rw [run_concat]
    exact List.mem_of_getElem? hw.getElem?_self
  · have hadvance := hw.advance
    rw [hphase] at hadvance
    generalize k.phase = phase at hadvance ⊢
    generalize ((s₀.run before).work i).world.tree = t' at hadvance
    cases hadvance with
    | unloaded herror => cases herror.symm.trans hok
    | loaded hok' =>
      cases hok'.symm.trans hok
      rfl

/-- A history of workers that share a store, which is empty at first and into which nobody else
writes. All of them eliminate dead code. The hash tells apart what it is given, and what is stored
can be read again. -/
structure Sharing (s : Cache.Store) (s₀ : Shop) (moves : List Move) : Prop where
  hands : s₀.hands = []
  empty : ∀ key bytes, s.entryAt s₀.world.tree key ≠ some (.file bytes)
  hire : ∀ q path, .hire q path ∈ moves → (q.store? = none ∨ q.store? = some s) ∧
    q.config.pipeline.eliminateDeadCode = true
  edit : ∀ before t key bytes, before ++ [.edit t] <+: moves →
    s.entryAt t key = some (.file bytes) →
    s.entryAt (s₀.run before).world.tree key = some (.file bytes)
  hashFiles : Set.InjOn Sha256.hash {bytes | ∃ q g, Reads s₀ moves q g bytes}
  hashKeys : Set.InjOn Sha256.hash {b | ∃ q g bytes, Reads s₀ moves q g bytes ∧
    b = Digest.keyParts bytes g.name q.config.pipeline}
  kept : ∀ before h r key, before <+: moves → h ∈ (s₀.run before).hands →
    h.worker.phase = .storing r (some key) → Payload.Kept r

/-- What an entry has to hold: the record of what a run comes to for a graph that some worker
loaded, under the key of its bytes, its name and the settings. -/
def Justified (s₀ : Shop) (moves : List Move) (key bytes : ByteArray) : Prop :=
  ∃ i q path g input r, Loaded s₀ moves i q path g input ∧
    q.config.pipeline.eliminateDeadCode = true ∧
    key = Digest.resultKey input g.name q.config.pipeline ∧
    Pipeline.findings q.config.pipeline g = .ok r.findings ∧ Payload.Kept r ∧
    bytes = (Payload.ofResult r).encode

/-- What is true at every point of a history with a shared store. -/
structure Honest (s : Cache.Store) (s₀ : Shop) (moves : List Move) : Prop where
  entry : ∀ {key bytes : ByteArray}, s.entryAt (s₀.run moves).world.tree key = some (.file bytes) →
    Justified s₀ moves key bytes
  request : ∀ {i : Nat} {h : Hand}, (s₀.run moves).hands[i]? = some h →
    (h.request.store? = none ∨ h.request.store? = some s) ∧
      h.request.config.pipeline.eliminateDeadCode = true
  aims : ∀ {i : Nat} {h : Hand}, (s₀.run moves).hands[i]? = some h →
    h.worker.phase.Aims h.worker.path
  holds : ∀ {i : Nat} {h : Hand}, (s₀.run moves).hands[i]? = some h →
    h.worker.phase.Holds (Loaded s₀ moves i h.request h.worker.path) h.request.config.pipeline
      h.worker.path

theorem Justified.mono {moves' : List Move} {key bytes : ByteArray}
    (h : Justified s₀ moves key bytes) (hmoves : moves <+: moves') :
    Justified s₀ moves' key bytes := by
  obtain ⟨i, q, path, g, input, r, hload, hrest⟩ := h
  exact ⟨i, q, path, g, input, r, hload.mono hmoves, hrest⟩

private theorem Sharing.findings_of_stored (hs : Sharing s s₀ moves) {tree : Tree}
    (hentry : ∀ {key bytes : ByteArray}, s.entryAt tree key = some (.file bytes) →
      Justified s₀ moves key bytes) (hload : Loaded s₀ moves i q path g bytes)
    {r : Pipeline.Result}
    (hr : Worker.stored s tree (Digest.resultKey bytes g.name q.config.pipeline) = .ok (some r)) :
    Pipeline.findings q.config.pipeline g = .ok r.findings := by
  rw [Worker.stored] at hr
  split at hr
  · cases hr
  rename_i p hp
  split at hr
  case isFalse => cases hr
  rename_i hcurrent
  split at hr
  case h_2 => cases hr
  rename_i r' hr'
  cases hr
  obtain ⟨file, hfile, hdecode⟩ := Cache.Store.exists_entry_of_lookup hp hcurrent
  -- the entry was stored after a run for a graph `g₀` that some worker had loaded
  obtain ⟨i₀, q₀, path₀, g₀, input, r₀, hload₀, helim, hkey, hfindings, hkept, rfl⟩ := hentry hfile
  cases hdecode.symm.trans hkept.payload
  -- equal keys come from equal bytes, names and settings, which make the two graphs equal
  obtain ⟨rfl, hname, hcfg⟩ := Digest.resultKey_inj
    (hs.hashFiles ⟨q, g, hload.reads⟩ ⟨q₀, g₀, hload₀.reads⟩)
    (hs.hashKeys ⟨q, g, bytes, hload.reads, rfl⟩ ⟨q₀, g₀, input, hload₀.reads, rfl⟩) hkey
  obtain ⟨before, -, -, hok⟩ := hload
  obtain ⟨before₀, -, -, hok₀⟩ := hload₀
  cases GraphFile.load_inj hok hok₀ hname
  obtain ⟨htidy, -, hedges⟩ := Pipeline.tidy_of_findings Operation.lasting_recordable
    (GraphFile.decoded_of_load hok₀).tidy hfindings
  rw [hcfg, hfindings, Payload.findings_of_result ⟨htidy, hedges (Or.inl helim)⟩ hkept hr']

private theorem honest_nil (hs : Sharing s s₀ moves) : Honest s s₀ [] := by
  have hnone : ∀ {i : Nat} {h : Hand}, (s₀.run []).hands[i]? = some h → False := by
    intro i h hi
    rw [run, List.foldl_nil, hs.hands] at hi
    cases hi
  exact ⟨fun hentry ↦ absurd hentry (hs.empty _ _), fun hi ↦ (hnone hi).elim,
    fun hi ↦ (hnone hi).elim, fun hi ↦ (hnone hi).elim⟩

private theorem Honest.edit (hs : Sharing s s₀ moves) (hpre : Honest s s₀ pre)
    (hm : pre ++ [.edit t] <+: moves) : Honest s s₀ (pre ++ [.edit t]) := by
  have hmono : pre <+: pre ++ [.edit t] := List.prefix_append _ _
  refine ⟨fun hentry ↦ ?_, fun hi ↦ ?_, fun hi ↦ ?_, fun hi ↦ ?_⟩
  · rw [run_concat] at hentry
    exact (hpre.entry (hs.edit pre t _ _ hm hentry)).mono hmono
  · rw [run_concat] at hi
    exact hpre.request hi
  · rw [run_concat] at hi
    exact hpre.aims hi
  · rw [run_concat] at hi
    exact (hpre.holds hi).mono fun _ _ hload ↦ hload.mono hmono

private theorem Honest.hire (hs : Sharing s s₀ moves) (hpre : Honest s s₀ pre)
    (hm : pre ++ [.hire q path] <+: moves) : Honest s s₀ (pre ++ [.hire q path]) := by
  have hmono : pre <+: pre ++ [.hire q path] := List.prefix_append _ _
  have hhand : ∀ {i : Nat} {h : Hand}, (s₀.run (pre ++ [.hire q path])).hands[i]? = some h →
      (s₀.run pre).hands[i]? = some h ∨ h = ⟨q, .fresh path⟩ := by
    intro i h hi
    rw [run_concat] at hi
    change ((s₀.run pre).hands ++ [⟨q, .fresh path⟩])[i]? = some h at hi
    rw [List.getElem?_append] at hi
    split at hi
    · exact Or.inl hi
    · exact Or.inr (List.mem_singleton.mp (List.mem_of_getElem? hi))
  refine ⟨fun hentry ↦ ?_, fun hi ↦ ?_, fun hi ↦ ?_, fun hi ↦ ?_⟩
  · rw [run_concat] at hentry
    exact (hpre.entry hentry).mono hmono
  · rcases hhand hi with hi | rfl
    · exact hpre.request hi
    · exact hs.hire q path (hm.subset List.mem_concat_self)
  · rcases hhand hi with hi | rfl
    · exact hpre.aims hi
    · trivial
  · rcases hhand hi with hi | rfl
    · exact (hpre.holds hi).mono fun _ _ hload ↦ hload.mono hmono
    · trivial

private theorem Honest.work (hs : Sharing s s₀ moves) (hpre : Honest s s₀ pre)
    (hm : pre ++ [.work i] <+: moves) : Honest s s₀ (pre ++ [.work i]) := by
  have hmono : pre <+: pre ++ [.work i] := List.prefix_append _ _
  have hrun : s₀.run (pre ++ [.work i]) = (s₀.run pre).work i := run_concat ..
  have hold : ∀ {j : Nat} {h : Hand}, (s₀.run pre).hands[j]? = some h →
      h.worker.phase.Holds (Loaded s₀ (pre ++ [.work i]) j h.request h.worker.path)
        h.request.config.pipeline h.worker.path :=
    fun hj ↦ (hpre.holds hj).mono fun _ _ hload ↦ hload.mono hmono
  cases hi : (s₀.run pre).hands[i]? with
  | none =>
    rw [work_of_none hi] at hrun
    refine ⟨fun hentry ↦ ?_, fun hj ↦ ?_, fun hj ↦ ?_, fun hj ↦ ?_⟩
    · rw [hrun] at hentry
      exact (hpre.entry hentry).mono hmono
    · rw [hrun] at hj
      exact hpre.request hj
    · rw [hrun] at hj
      exact hpre.aims hj
    · rw [hrun] at hj
      exact hold hj
  | some h =>
    obtain ⟨hstore, helim⟩ := hpre.request hi
    obtain ⟨k, hw⟩ := worked_of_work hi
    rw [← hrun] at hw
    exact {
      entry := fun {key bytes} hentry ↦ by
        rcases hw.advance.entry_cases hstore (hpre.aims hi) hentry with hentry | ⟨r, hphase, rfl⟩
        · exact (hpre.entry hentry).mono hmono
        · have hholds := hold hi
          rw [hphase] at hholds
          obtain ⟨g, input, hload, hfindings, hkey⟩ := hholds
          exact ⟨i, h.request, h.worker.path, g, input, r, hload, helim, hkey key rfl, hfindings,
            hs.kept pre h r _ (hmono.trans hm) (List.mem_of_getElem? hi) hphase, rfl⟩
      request := fun {j hand} hj ↦ by
        rcases hw.hand_cases hj with hj | ⟨rfl, rfl⟩
        · exact hpre.request hj
        · exact ⟨hstore, helim⟩
      aims := fun {j hand} hj ↦ by
        rcases hw.hand_cases hj with hj | ⟨rfl, rfl⟩
        · exact hpre.aims hj
        · have haims := hw.advance.aims
          rwa [← hw.path_eq] at haims
      holds := fun {j hand} hj ↦ by
        rcases hw.hand_cases hj with hj | ⟨rfl, rfl⟩
        · exact hold hj
        · change k.phase.Holds (Loaded s₀ _ j h.request k.path) h.request.config.pipeline k.path
          rw [hw.path_eq]
          refine hw.advance.holds (hold hi) (fun g bytes hphase hok ↦ ?_)
            fun g bytes s' r hphase hs' hr ↦ ?_
          · exact ⟨pre, List.prefix_rfl, ⟨h, hi, rfl, rfl, hphase⟩, hok⟩
          · have hholds := hold hi
            rw [hphase] at hholds
            obtain rfl : s = s' := by
              rcases hstore with hnone | hsome
              · cases hnone.symm.trans hs'
              · exact Option.some.inj (hsome.symm.trans hs')
            -- what the worker finds was stored before the step, when all entries were honest
            exact hs.findings_of_stored (fun hentry ↦ (hpre.entry hentry).mono (hmono.trans hm))
              (Loaded.mono hholds hm) hr }

/-- Every point of a history with a shared store is honest. -/
private theorem Sharing.honest (hs : Sharing s s₀ moves) (hpre : pre <+: moves) :
    Honest s s₀ pre := by
  induction pre using List.reverseRecOn with
  | nil => exact honest_nil hs
  | append_singleton pre m ih =>
    have hbefore := ih ((List.prefix_append _ _).trans hpre)
    cases m with
    | hire q path => exact hbefore.hire hs hpre
    | work i => exact hbefore.work hs hpre
    | edit t => exact hbefore.edit hs hpre

/-- Every worker that ends with success in a history with a shared store has loaded a graph, and its
result says what any run that is not called off comes to for this graph under its settings, whether
the result comes from the store or not. -/
theorem exists_run_of_ended (hs : Sharing s s₀ moves) {o : Outcome}
    (hi : (s₀.run moves).hands[i]? = some h) (hend : h.worker.phase = .ended o)
    (hnone : o.failure? = none) :
    o.path = h.worker.path ∧ ∃ r g bytes, o.result? = some r ∧
      Loaded s₀ moves i h.request h.worker.path g bytes ∧
      ∀ (c : Pipeline.Context) (recorder : Trace.Recorder),
        c.settings = h.request.config.pipeline → c.canceled = false →
          ∃ r', (Pipeline.run c recorder (some g)).1 = .ok r' ∧ r'.graph = r.graph ∧
            r'.order = r.order ∧ r'.loops = r.loops ∧ r'.stats = r.stats := by
  have hholds := (hs.honest List.prefix_rfl).holds hi
  rw [hend] at hholds
  obtain ⟨hpath, r, g, bytes, hr, hload, hfindings⟩ := hholds hnone
  refine ⟨hpath, r, g, bytes, hr, hload, fun c recorder hcfg hc ↦ ?_⟩
  rw [← hcfg] at hfindings
  obtain ⟨r', hrun, hsame⟩ := (Pipeline.exists_run_iff hc recorder).mpr hfindings
  have hfields : r'.graph = r.graph ∧ r'.order = r.order ∧ r'.loops = r.loops ∧
      r'.stats = r.stats := by
    simpa [Pipeline.Result.findings] using hsame
  exact ⟨r', hrun, hfields⟩

/-! ## A file that nobody writes

Workers of a request without outputs write entries only. A file whose name is not that of an entry
is then the same throughout, and each of the workers carries the one graph that it has. -/

/-- What a worker of a file holds that has always had the same graph. -/
def Carries (g : Graph) (bytes : ByteArray) (x : Pipeline.Findings) : Phase → Prop
  | .looking g' bytes' => g' = g ∧ bytes' = bytes
  | .running g' _ => g' = g
  | .storing r _ => r.findings = x
  | .filling .. => False
  | .ended o => o.failure? = none
  | _ => True

/-- The workers of a request without outputs, all of them for one file that has always had the same
graph. -/
structure Steady (q : Request) (path : String) (g : Graph) (bytes : ByteArray)
    (x : Pipeline.Findings) (s : Shop) : Prop where
  load : GraphFile.load s.world.tree path = .ok (g, bytes)
  hand : ∀ h ∈ s.hands, h.request = q ∧ h.worker.path = path ∧ Carries g bytes x h.worker.phase

private theorem carries_of_advance {x : Pipeline.Findings} (h : Advance q path t phase t' phase')
    (hload : GraphFile.load t path = .ok (g, bytes)) (hdirectory : q.config.output.directory = "")
    (hfindings : Pipeline.findings q.config.pipeline g = .ok x) (hold : Carries g bytes x phase) :
    Carries g bytes x phase' := by
  cases h with
  | loaded hok =>
    cases hok.symm.trans hload
    exact ⟨rfl, rfl⟩
  | missed _ _ => exact hold.1
  | ran hok =>
    cases hold
    cases hok.symm.trans hfindings
    rfl
  | unloaded herror => cases herror.symm.trans hload
  | broken herror =>
    cases hold
    cases herror.symm.trans hfindings
  | opened hres | unopened hres =>
    rw [Worker.openOutput, hdirectory] at hres
    cases hres
  | filled => exact hold.elim
  | idle => exact hold
  | unasked _ => rfl
  | started | found _ _ _ | unstored _ | stored _ => trivial

private theorem load_of_advance {name : String} (hname : EndsIn path name)
    (hkey : ∀ key, name ≠ keyName key) (hdirectory : q.config.output.directory = "")
    (h : Advance q path t phase t' phase') (hphase : phase.isFilling = false)
    (hload : GraphFile.load t path = .ok (g, bytes)) : GraphFile.load t' path = .ok (g, bytes) := by
  obtain ⟨-, -, hread, -⟩ := GraphFile.exists_of_load hload
  suffices hread' : t'.read path = .ok bytes by
    rwa [GraphFile.load, hread', ← hread, ← GraphFile.load]
  cases h with
  | started | unloaded _ | loaded _ | found _ _ _ | missed _ _ | ran _ | broken _ | unstored _
  | idle => exact hread
  | unasked hres =>
    rw [Worker.openOutput, hdirectory] at hres
    cases hres
    exact hread
  | opened hres | unopened hres =>
    rw [Worker.openOutput, hdirectory] at hres
    cases hres
  | filled => cases hphase
  | @stored r s key hs =>
    rcases insert_changes s t key (.ofResult r) with
      ⟨t₁, hinsert, hchanges, -⟩ | ⟨e, t₁, hinsert, hchanges⟩
    · rw [hinsert]
      refine hchanges.read hread ?_
      exact Tree.placeOf_ne hname (endsIn_pathOf s key) (hkey key) t
    · rw [hinsert]
      exact hchanges.read hread id

private theorem Steady.work {name : String} {x : Pipeline.Findings} {s : Shop}
    (hname : EndsIn path name) (hkey : ∀ key, name ≠ keyName key)
    (hdirectory : q.config.output.directory = "")
    (hfindings : Pipeline.findings q.config.pipeline g = .ok x) (hs : Steady q path g bytes x s)
    (i : Nat) : Steady q path g bytes x (s.work i) := by
  cases hi : s.hands[i]? with
  | none => rwa [work_of_none hi]
  | some h =>
    obtain ⟨k, hw⟩ := worked_of_work hi
    obtain ⟨hrequest, hpath, hcarries⟩ := hs.hand h (List.mem_of_getElem? hi)
    have hadvance := hw.advance
    rw [hrequest, hpath] at hadvance
    have hphase : h.worker.phase.isFilling = false := by
      cases hopen : h.worker.phase with
      | filling r cached output =>
        rw [hopen] at hcarries
        exact hcarries.elim
      | _ => rfl
    refine ⟨load_of_advance hname hkey hdirectory hadvance hphase hs.load, fun hand hmem ↦ ?_⟩
    obtain ⟨j, hj⟩ := List.mem_iff_getElem?.mp hmem
    rcases hw.hand_cases hj with hj | ⟨-, rfl⟩
    · exact hs.hand hand (List.mem_of_getElem? hj)
    · exact ⟨hrequest, hw.path_eq.trans hpath,
        carries_of_advance hadvance hs.load hdirectory hfindings hcarries⟩

private theorem Steady.run {name : String} {x : Pipeline.Findings} (hname : EndsIn path name)
    (hkey : ∀ key, name ≠ keyName key) (hdirectory : q.config.output.directory = "")
    (hfindings : Pipeline.findings q.config.pipeline g = .ok x) :
    ∀ {moves : List Move} {s : Shop}, (∀ m ∈ moves, m = .hire q path ∨ ∃ i, m = .work i) →
      Steady q path g bytes x s → Steady q path g bytes x (s.run moves)
  | [], _, _, hs => hs
  | m :: moves, s, hmoves, hs => by
    rw [List.forall_mem_cons] at hmoves
    refine Steady.run (s := s.move m) hname hkey hdirectory hfindings hmoves.2 ?_
    rcases hmoves.1 with rfl | ⟨i, rfl⟩
    · refine ⟨hs.load, fun h hmem ↦ ?_⟩
      rcases List.mem_append.mp hmem with hmem | hmem
      · exact hs.hand h hmem
      · rw [List.mem_singleton.mp hmem]
        exact ⟨rfl, rfl, trivial⟩
    · exact hs.work hname hkey hdirectory hfindings i

/-! ## The same file twice

Two workers of one file, one after the other, where the second finds what the first has stored. -/

deriving instance DecidableEq for Pipeline.Findings

/-- The store of the two workers. -/
def sampleStore : Cache.Store := ⟨"cache"⟩

/-- A batch with a store and no outputs, which names a file twice. -/
def twiceRequest : Request where
  files := ["x.cfg.toml", "x.cfg.toml"]
  config := Config.default
  store? := some sampleStore
  level := .off
  parent := 0
  canceled := false

/-- The file, and nothing else. -/
def twiceWorld : World :=
  ⟨⟨.directory [("x.cfg.toml", .file (leafText "east").toUTF8)], []⟩, .start, #[], .empty⟩

/-- Two workers are hired, and then they work one after the other. -/
def twiceMoves : List Move :=
  twiceRequest.files.map (.hire twiceRequest) ++ (inOrder 0 2).map .work

/-- What a run comes to for the file. -/
def sampleResult : Pipeline.Result :=
  ⟨sampleLeaf "east", some [0], [], ⟨1, 1, 0, 0, 0, 1, 1, 0, 0, true⟩, []⟩

/-- The file is read in the textual form, its outputs have its name, and its graph is one that a run
leaves as it is and that fits into an entry. -/
theorem sampleResult_spec :
    GraphFormat.forPath "x.cfg.toml" = .ok .text ∧
      outputName "x.cfg.toml" .text = "x.cfg.toml" ∧
      Pipeline.findings twiceRequest.config.pipeline (sampleLeaf "east")
        = .ok sampleResult.findings ∧
      (Binary.encode (sampleLeaf "east")).size < 2 ^ 32 := by
  decide +kernel

theorem load_twiceWorld : GraphFile.load twiceWorld.tree "x.cfg.toml"
    = .ok (sampleLeaf "east", (leafText "east").toUTF8) :=
  load_leafText (by decide) sampleResult_spec.1 (by decide)

private theorem compact_sampleLeaf : (sampleLeaf "east").Compact where
  name := by decide
  op := by
    have hops : ∀ op ∈ (sampleLeaf "east").ops.toList, op = .ret [] := by decide
    intro i op hi
    rw [← Array.getElem?_toList] at hi
    rw [hops op (List.mem_of_getElem? hi)]
    exact ⟨by decide, by decide⟩

private theorem plain_sampleResult : MessagePack.Plain (Payload.ofResult sampleResult).value := by
  obtain ⟨-, -, -, hgraph⟩ := sampleResult_spec
  have hstats : ∀ c ∈ Pipeline.Stats.counters,
      0 ≤ c.get sampleResult.stats ∧ c.get sampleResult.stats < 0x80 := by decide
  refine MessagePack.plain_record (by decide) (by decide) ?_
  simp only [List.forall_mem_cons, List.not_mem_nil, false_imp_iff, implies_true, and_true]
  refine ⟨.word16 _, .bin hgraph, Payload.plain_blocksValue (by decide), .nil,
    Payload.plain_statsValue fun c hc ↦ ?_⟩
  obtain ⟨hle, hlt⟩ := hstats c hc
  exact ⟨(c.get sampleResult.stats).toNat, by lia, (Int.toNat_of_nonneg hle).symm⟩

private theorem kept_sampleResult : Payload.Kept sampleResult where
  payload := by
    rw [Payload.decode?, Payload.encode, MessagePack.ofBytes?_toBytes plain_sampleResult,
      Option.bind_some]
    rfl
  graph := Binary.ofValue?_encode (GraphFile.decoded_of_load load_twiceWorld).tidy
    compact_sampleLeaf

theorem ne_keyName (key : ByteArray) : "x.cfg.toml" ≠ keyName key := by
  have hne := keyName_ne_outputName key "x.cfg.toml" .text
  rw [sampleResult_spec.2.1] at hne
  exact hne.symm

private theorem entry_twiceWorld (key bytes : ByteArray) :
    sampleStore.entryAt twiceWorld.tree key ≠ some (.file bytes) := by
  obtain ⟨p, hp, -⟩ := Tree.exists_placeOf (endsIn_pathOf sampleStore key) twiceWorld.tree
  rw [Cache.Store.entryAt, hp, Tree.get?, twiceWorld]
  cases p with
  | nil =>
    rw [List.nil_append, Files.Node.get?, Files.Node.lookup_cons, if_neg (ne_keyName key).symm]
    simp
  | cons name rest =>
    have hbelow : ∀ b, (Files.Node.file b).get? (rest ++ [keyName key]) = none := by
      intro b
      cases rest <;> rfl
    rw [List.cons_append, Files.Node.get?, Files.Node.lookup_cons]
    split
    · rw [Option.bind_some, hbelow]
      simp
    · simp

theorem twice_cases : ∀ m ∈ twiceMoves, m = .hire twiceRequest "x.cfg.toml" ∨ ∃ i, m = .work i := by
  intro m hm
  rcases List.mem_append.mp hm with hm | hm
  · obtain ⟨path, hpath, rfl⟩ := List.mem_map.mp hm
    have hsame : path = "x.cfg.toml" := by simpa [twiceRequest] using hpath
    exact Or.inl (by rw [hsame])
  · obtain ⟨i, -, rfl⟩ := List.mem_map.mp hm
    exact Or.inr ⟨i, rfl⟩

private theorem endsIn_twice : EndsIn "x.cfg.toml" "x.cfg.toml" :=
  Files.endsIn_self (by rw [Files.IsElement]; decide) (by decide) (by decide) (by decide)

theorem steady_twice {pre : List Move} (hpre : pre <+: twiceMoves) :
    Steady twiceRequest "x.cfg.toml" (sampleLeaf "east") (leafText "east").toUTF8
      sampleResult.findings (run ⟨twiceWorld, []⟩ pre) := by
  have hstart : Steady twiceRequest "x.cfg.toml" (sampleLeaf "east") (leafText "east").toUTF8
      sampleResult.findings ⟨twiceWorld, []⟩ :=
    ⟨load_twiceWorld, fun h hmem ↦ absurd hmem List.not_mem_nil⟩
  have hdirectory : twiceRequest.config.output.directory = "" := by decide
  refine Steady.run endsIn_twice ne_keyName hdirectory sampleResult_spec.2.2.1 ?_ hstart
  exact fun m hm ↦ twice_cases m (hpre.subset hm)

theorem reads_twice (hreads : Reads ⟨twiceWorld, []⟩ twiceMoves q g bytes) :
    q = twiceRequest ∧ g = sampleLeaf "east" ∧ bytes = (leafText "east").toUTF8 := by
  obtain ⟨before, h, hbefore, hmem, rfl, hphase⟩ := hreads
  obtain ⟨hrequest, -, hcarries⟩ := (steady_twice hbefore).hand h hmem
  rw [hphase] at hcarries
  exact ⟨hrequest, hcarries⟩

private theorem sharing_twice : Sharing sampleStore ⟨twiceWorld, []⟩ twiceMoves where
  hands := rfl
  empty := entry_twiceWorld
  hire q path hm := by
    rcases twice_cases _ hm with heq | ⟨i, heq⟩
    · cases heq
      exact ⟨Or.inr rfl, rfl⟩
    · cases heq
  edit before t key bytes hm := by
    rcases twice_cases _ (hm.subset List.mem_concat_self) with heq | ⟨i, heq⟩ <;> cases heq
  hashFiles := by
    rintro a ⟨q, g, ha⟩ b ⟨q', g', hb⟩ -
    rw [(reads_twice ha).2.2, (reads_twice hb).2.2]
  hashKeys := by
    rintro a ⟨q, g, bytes, ha, rfl⟩ b ⟨q', g', bytes', hb, rfl⟩ -
    obtain ⟨rfl, rfl, rfl⟩ := reads_twice ha
    obtain ⟨rfl, rfl, rfl⟩ := reads_twice hb
    rfl
  kept before h r key hbefore hmem hphase := by
    obtain ⟨-, -, hcarries⟩ := (steady_twice hbefore).hand h hmem
    rw [hphase] at hcarries
    exact kept_sampleResult.congr hcarries

private theorem outcome?_twice :
    ∃ o, (run ⟨twiceWorld, []⟩ twiceMoves).outcome? 1 = some o ∧ o.failure? = none := by
  have hexists : ∃ o, ((start twiceRequest twiceWorld).follow (inOrder 0 2)).outcome? 1 = some o :=
    exists_outcome twiceRequest twiceWorld rfl (by decide)
  obtain ⟨o, ho⟩ := hexists
  rw [follow_start, ← twiceMoves] at ho
  obtain ⟨h, hi, hend⟩ := outcome?_eq_some.mp ho
  obtain ⟨-, -, hcarries⟩ := (steady_twice List.prefix_rfl).hand h (List.mem_of_getElem? hi)
  rw [hend] at hcarries
  exact ⟨o, ho, hcarries⟩

theorem exists_run_of_ended_twice : ∃ o r r',
    (run ⟨twiceWorld, []⟩ twiceMoves).outcome? 1 = some o ∧ o.failure? = none ∧
      o.result? = some r ∧
      (Pipeline.run .plain .start (some (sampleLeaf "east"))).1 = .ok r' ∧ r'.graph = r.graph ∧
      r'.order = r.order ∧ r'.loops = r.loops ∧ r'.stats = r.stats := by
  obtain ⟨o, ho, hnone⟩ := outcome?_twice
  obtain ⟨h, hi, hend⟩ := outcome?_eq_some.mp ho
  obtain ⟨-, r, g, bytes, hr, hload, hruns⟩ := exists_run_of_ended sharing_twice hi hend hnone
  obtain ⟨hrequest, rfl, -⟩ := reads_twice hload.reads
  have hcfg : Pipeline.Context.plain.settings = h.request.config.pipeline := by
    rw [hrequest]
    rfl
  obtain ⟨r', hrun, hsame⟩ := hruns .plain .start hcfg rfl
  exact ⟨o, r, r', ho, hnone, hr, hrun, hsame⟩

end Shop

end Flowgraph.Batch
