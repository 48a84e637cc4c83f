import Flowgraph.Batch.Process
import Flowgraph.Proofs.Digest.Keys
import Flowgraph.Proofs.Files.Places
import Flowgraph.Proofs.Pipeline.Findings

/-!
# What a step of a worker does

A worker changes files in three steps only: it stores a result under its key, it opens its output,
and it fills the open output. Each of them changes one file, at a place that follows from the name
of the file: the key in hexadecimal, or the stem of the input with the suffix of a format. Neither
name can be the other, which keeps outputs and entries apart wherever their directories are.

`Advance` has one case for every way a worker can go on, with all that the rest of a proof has to
know about it.
-/

namespace Flowgraph

open Files (EndsIn IsElement Place Tree)

/-! ## Names of files

The name of an output is the stem of the input and a suffix, the name of an entry is a key in
hexadecimal and a suffix of its own. Both are names without slashes, so that a path that ends in one
of them ends in a place of this name, in whatever directory. -/

private theorem endsWith_iff {s t : String} : s.endsWith t = true ↔ t.toList <:+ s.toList := by
  have h : s.toSlice.endsWith t = true ↔ t.toList <:+ s.toSlice.copy.toList :=
    String.Slice.endsWith_string_iff
  rwa [String.copy_toSlice] at h

namespace GraphFile

/-- The stem of a path is the root or an element. -/
theorem stem_cases (path : String) :
    stem path = "/" ∨ stem path ≠ "" ∧ IsElement (stem path) :=
  Files.baseName_cases _

end GraphFile

namespace Batch

/-- The last element of the path of an output. The stem of the root adds nothing to it. -/
def outputName (path : String) (f : GraphFormat) : String :=
  if GraphFile.stem path = "/" then f.suffix else GraphFile.stem path ++ f.suffix

theorem toList_append_inj {s t u : String} (h : s ++ u = t ++ u) : s = t := by
  have hlist := congrArg String.toList h
  rw [String.toList_append, String.toList_append] at hlist
  exact String.toList_inj.mp (List.append_cancel_right hlist)

theorem outputName_inj {path path' : String} {f : GraphFormat}
    (h : outputName path f = outputName path' f) : GraphFile.stem path = GraphFile.stem path' := by
  have hempty : ∀ {s : String}, s ++ f.suffix = f.suffix → s = "" := fun hs ↦
    toList_append_inj (hs.trans (String.empty_append).symm)
  rw [outputName, outputName] at h
  split_ifs at h with hroot hroot' hroot'
  · rw [hroot, hroot']
  · exact absurd (hempty h.symm) ((GraphFile.stem_cases path').resolve_left hroot').1
  · exact absurd (hempty h) ((GraphFile.stem_cases path).resolve_left hroot).1
  · exact toList_append_inj h

private theorem isElement_append {s t : String} (hs : IsElement s) (ht : IsElement t) :
    IsElement (s ++ t) := by
  rw [IsElement, String.toList_append, List.mem_append, not_or]
  exact ⟨hs, ht⟩

/-- An element with a long enough end ends in itself. -/
theorem endsIn_append {s t : String} (hs : IsElement s) (ht : IsElement t)
    (hlength : 2 < t.toList.length) : EndsIn (s ++ t) (s ++ t) := by
  have hne : ∀ u : String, u.toList.length ≤ 2 → s ++ t ≠ u := by
    rintro u hu rfl
    rw [String.toList_append, List.length_append] at hu
    omega
  exact Files.endsIn_self (isElement_append hs ht) (hne _ (by decide)) (hne _ (by decide))
    (hne _ (by decide))

private theorem isElement_suffix (f : GraphFormat) : IsElement f.suffix := by
  rw [IsElement]
  cases f <;> decide

private theorem length_suffix (f : GraphFormat) : 2 < f.suffix.toList.length := by
  cases f <;> decide

theorem endsIn_outputPath (directory path : String) (f : GraphFormat) :
    EndsIn (Worker.outputPath directory path f) (outputName path f) := by
  have hname : EndsIn (GraphFile.stem path ++ f.suffix) (outputName path f) := by
    rw [outputName]
    split
    · rename_i hroot
      have hsuffix := endsIn_append (s := "") (by rw [IsElement]; decide) (isElement_suffix f)
        (length_suffix f)
      rw [String.empty_append] at hsuffix
      refine ⟨?_, hsuffix.ne_empty, hsuffix.ne_dot, hsuffix.ne_dots⟩
      rw [hroot, Files.elements_slash, List.getLast?_cons, hsuffix.last, Option.getD_some]
    · rename_i hroot
      exact endsIn_append ((GraphFile.stem_cases path).resolve_left hroot).2 (isElement_suffix f)
        (length_suffix f)
  exact hname.join [directory]

theorem suffix_outputName (path : String) (f : GraphFormat) :
    f.suffix.toList <:+ (outputName path f).toList := by
  rw [outputName]
  split
  · exact List.suffix_refl _
  · rw [String.toList_append]
    exact List.suffix_append _ _

private theorem forPath_outputPath (directory path : String) (f : GraphFormat) :
    GraphFormat.forPath (Worker.outputPath directory path f) = .ok f := by
  have hsuffix := (suffix_outputName path f).trans (endsIn_outputPath directory path f).suffix
  have hend : (Worker.outputPath directory path f).endsWith f.suffix = true :=
    endsWith_iff.mpr hsuffix
  rw [GraphFormat.forPath]
  cases f with
  | text => rw [if_pos hend]
  | binary =>
    rw [if_neg, if_pos hend]
    intro htext
    have hlong := List.suffix_of_suffix_length_le hsuffix (endsWith_iff.mp htext) (by decide)
    exact absurd hlong (by decide)

/-- The last element of the path of a stored result. -/
def keyName (key : ByteArray) : String := Text.hexBytes key ++ Cache.Store.suffix

theorem keyName_inj {key key' : ByteArray} (h : keyName key = keyName key') : key = key' :=
  Text.hexBytes_inj (toList_append_inj h)

theorem endsIn_pathOf (s : Cache.Store) (key : ByteArray) : EndsIn (s.pathOf key) (keyName key) :=
  (endsIn_append (Text.isElement_hexBytes key) (by rw [IsElement]; decide) (by decide)).join
    [s.directory, _]

theorem keyName_ne_outputName (key : ByteArray) (path : String) (f : GraphFormat) :
    keyName key ≠ outputName path f := by
  intro heq
  have hkey : Cache.Store.suffix.toList <:+ (keyName key).toList := by
    rw [keyName, String.toList_append]
    exact List.suffix_append _ _
  have hout := suffix_outputName path f
  rw [← heq] at hout
  cases f with
  | text => exact absurd (List.suffix_of_suffix_length_le hkey hout (by decide)) (by decide)
  | binary => exact absurd (List.suffix_of_suffix_length_le hout hkey (by decide)) (by decide)

/-! ## Files that a worker writes

Storing and opening make the directories that are missing, which changes no file, and then write at
one place. What is said here of the tree afterwards is all that later modules know of it. -/

variable {t t' : Tree} {path : String}

theorem insert_changes (s : Cache.Store) (t : Tree) (key : ByteArray) (p : Cache.Payload) :
    (∃ t', s.insert t key p = (.ok (), t') ∧
      Tree.Changes (· = t.placeOf (s.pathOf key)) t t' ∧
      t'.read (s.pathOf key) = .ok { p with schema := Cache.currentSchema }.encode) ∨
    ∃ e t', s.insert t key p = (.error e, t') ∧ Tree.Changes (fun _ ↦ False) t t' :=
  Tree.plant_file (endsIn_pathOf s key) t _

private theorem create_outputPath {directory : String} {f : GraphFormat} {g : Graph}
    {output : GraphFile.Opened}
    (h : GraphFile.create t (Worker.outputPath directory path f) g = .ok (output, t')) :
    output = ⟨Worker.outputPath directory path f, t.placeOf (Worker.outputPath directory path f),
        f.encode g⟩ ∧
      t.Leads output.path ∧ Tree.Changes (· = output.place) t t' ∧
      t'.get? output.place = some (.file .empty) := by
  rw [GraphFile.create, forPath_outputPath] at h
  obtain ⟨f', hf, h⟩ := exists_of_bind_ok h
  cases hf
  obtain ⟨⟨p, t₁⟩, hcreate, h⟩ := exists_of_bind_ok h
  obtain ⟨hleads, rfl, hchanges, hempty⟩ :=
    Tree.create_eq_ok (endsIn_outputPath directory path f) (mapError_eq_ok hcreate)
  cases h
  exact ⟨rfl, hleads, hchanges, hempty⟩

/-- What opening the output of a file comes to: nothing if no output is asked for, a failure that
changes no file, or an output file that is open and empty. -/
theorem openOutput_cases (c : Config) (t : Tree) (path : String) (g : Graph) :
    ((c.output.directory = "" ∨ c.emits "graph" = false) ∧
      Worker.openOutput c t path g = (.ok none, t)) ∨
    (∃ f output t', GraphFormat.parse c.output.format = .ok f ∧
      Worker.openOutput c t path g = (.ok (some output), t') ∧
      output = ⟨Worker.outputPath c.output.directory path f,
        t.placeOf (Worker.outputPath c.output.directory path f), f.encode g⟩ ∧
      t'.Leads output.path ∧ Tree.Changes (· = output.place) t t' ∧
      t'.get? output.place = some (.file .empty)) ∨
    ∃ e t', Worker.openOutput c t path g = (.error e, t') ∧
      Tree.Changes (fun _ ↦ False) t t' := by
  unfold Worker.openOutput
  by_cases hno : (c.output.directory = "" || !c.emits "graph") = true
  · rw [if_pos hno]
    exact Or.inl ⟨by simpa using hno, rfl⟩
  rw [if_neg hno]
  refine Or.inr ?_
  cases hparse : GraphFormat.parse c.output.format with
  | error e => exact Or.inr ⟨_, t, rfl, .refl _ t⟩
  | ok f =>
    -- directories that are made for the output change no file, also if it then cannot be opened
    have hmade := Tree.changes_makeDirectories t c.output.directory
    cases hmake : t.makeDirectories c.output.directory with
    | mk res t₁ =>
      rw [hmake] at hmade
      cases res with
      | error e => exact Or.inr ⟨_, t₁, rfl, hmade⟩
      | ok u =>
        cases hcreate : GraphFile.create t₁ (Worker.outputPath c.output.directory path f) g with
        | error e =>
          simp only [hcreate]
          exact Or.inr ⟨_, t₁, rfl, hmade⟩
        | ok x =>
          obtain ⟨output, t₂⟩ := x
          obtain ⟨houtput, hleads, hchanges, hempty⟩ := create_outputPath hcreate
          rw [hmade.placeOf_eq] at houtput
          simp only [hcreate]
          exact Or.inl ⟨f, output, t₂, rfl, rfl, houtput, hchanges.leads hleads,
            (hmade.mono fun _ ↦ False.elim).trans hchanges, hempty⟩

/-- An output that is filled before somebody else opens it holds the graph. -/
theorem read_write_of_open {c : Config} {g : Graph} {output : GraphFile.Opened}
    (h : Worker.openOutput c t path g = (.ok (some output), t')) :
    (output.write t').read output.path = .ok output.bytes := by
  rcases openOutput_cases c t path g with
    ⟨-, hno⟩ | ⟨f, output', t₁, -, hok, houtput, hleads, hchanges, hempty⟩ | ⟨e, t₁, herror, -⟩
  · cases h.symm.trans hno
  · cases h.symm.trans hok
    have hfill := Tree.changes_fill t' output.place output.bytes
    refine Tree.read_eq_ok_iff.mpr ⟨hfill.leads hleads, ?_⟩
    have hplace : output.place = t'.placeOf output.path := by
      rw [hchanges.placeOf_eq, houtput]
    rw [GraphFile.Opened.write, hfill.placeOf_eq, ← hplace, Tree.get?_fill hempty, if_pos rfl,
      Tree.overlay_empty]
  · cases h.symm.trans herror

/-! ## One step -/

/-- The key under which a request looks for the result of a file, if it does. -/
def Request.key? (q : Request) (g : Graph) (bytes : ByteArray) : Option ByteArray :=
  if q.store?.isSome && q.config.batch.cache then
    some (Digest.resultKey bytes g.name q.config.pipeline)
  else none

/-- How a worker gets from one phase to the next, and what becomes of the files. -/
inductive Advance (q : Request) (path : String) : Tree → Phase → Tree → Phase → Prop
  | started {t : Tree} : Advance q path t .waiting t .loading
  | unloaded {t : Tree} {e : GraphFile.Error} (load : GraphFile.load t path = .error e) :
    Advance q path t .loading t (.ended ⟨path, none, "", false, some (.load e)⟩)
  | loaded {t : Tree} {g : Graph} {bytes : ByteArray}
    (load : GraphFile.load t path = .ok (g, bytes)) :
    Advance q path t .loading t (.looking g bytes)
  | found {t : Tree} {g : Graph} {bytes : ByteArray} {s : Cache.Store} {r : Pipeline.Result}
    (store : q.store? = some s) (cache : q.config.batch.cache = true)
    (stored : Worker.stored s t (Digest.resultKey bytes g.name q.config.pipeline)
      = .ok (some r)) :
    Advance q path t (.looking g bytes) t (.writing r true)
  | missed {t : Tree} {g : Graph} {bytes : ByteArray} {key? : Option ByteArray}
    (key : key? = q.key? g bytes)
    (absent : ∀ s ∈ q.store?, q.config.batch.cache = true → ∀ r,
      Worker.stored s t (Digest.resultKey bytes g.name q.config.pipeline) ≠ .ok (some r)) :
    Advance q path t (.looking g bytes) t (.running g key?)
  | ran {t : Tree} {g : Graph} {key? : Option ByteArray} {r : Pipeline.Result}
    (findings : Pipeline.findings q.config.pipeline g = .ok r.findings) :
    Advance q path t (.running g key?) t (.storing r key?)
  | broken {t : Tree} {g : Graph} {key? : Option ByteArray} {f : Pipeline.Failure}
    (findings : Pipeline.findings q.config.pipeline g = .error f) :
    Advance q path t (.running g key?) t
      (.ended ⟨path, none, "", false, some (.pipeline path f)⟩)
  | unstored {t : Tree} {r : Pipeline.Result} {key? : Option ByteArray}
    (store : q.store? = none ∨ key? = none) :
    Advance q path t (.storing r key?) t (.writing r false)
  | stored {t : Tree} {r : Pipeline.Result} {s : Cache.Store} {key : ByteArray}
    (store : q.store? = some s) :
    Advance q path t (.storing r (some key)) (s.insert t key (.ofResult r)).2 (.writing r false)
  | unasked {t t' : Tree} {r : Pipeline.Result} {cached : Bool}
    (opening : Worker.openOutput q.config t path r.graph = (.ok none, t')) :
    Advance q path t (.writing r cached) t' (.ended ⟨path, some r, "", cached, none⟩)
  | opened {t t' : Tree} {r : Pipeline.Result} {cached : Bool} {output : GraphFile.Opened}
    (opening : Worker.openOutput q.config t path r.graph = (.ok (some output), t')) :
    Advance q path t (.writing r cached) t' (.filling r cached output)
  | unopened {t t' : Tree} {r : Pipeline.Result} {cached : Bool} {f : Failure}
    (opening : Worker.openOutput q.config t path r.graph = (.error f, t')) :
    Advance q path t (.writing r cached) t' (.ended ⟨path, some r, "", cached, some f⟩)
  | filled {t : Tree} {r : Pipeline.Result} {cached : Bool} {output : GraphFile.Opened} :
    Advance q path t (.filling r cached output) (output.write t)
      (.ended ⟨path, some r, output.path, cached, none⟩)
  | idle {t : Tree} {o : Outcome} : Advance q path t (.ended o) t (.ended o)

namespace Worker

/-- A worker and the world come out of a phase in one of the ways in which it can go on. -/
def GoesOn (q : Request) (k : Worker) (w : World) (phase : Phase) (x : Worker × World) : Prop :=
  x.1.path = k.path ∧ Advance q k.path w.tree phase x.2.tree x.1.phase

variable {q : Request} {k : Worker} {w : World}

theorem fail_spec (k : Worker) (w : World) (f : Failure) (r? : Option Pipeline.Result)
    (cached : Bool) :
    (k.fail w f r? cached).1.path = k.path ∧
      (k.fail w f r? cached).1.phase = .ended ⟨k.path, r?, "", cached, some f⟩ ∧
      (k.fail w f r? cached).2.tree = w.tree := by
  rw [fail]
  cases k.failed <;> exact ⟨rfl, rfl, rfl⟩

private theorem load_goesOn : GoesOn q k w .loading (k.load w) := by
  unfold load
  dsimp only
  split
  · rename_i e hload
    obtain ⟨hpath, hend, htree⟩ := k.fail_spec (w.time .load) (.load e) none false
    rw [GoesOn, hpath, hend, htree]
    exact ⟨rfl, .unloaded hload⟩
  · rename_i g bytes hload
    exact ⟨rfl, .loaded hload⟩

private theorem look_goesOn {g : Graph} {bytes : ByteArray} :
    GoesOn q k w (.looking g bytes) (k.look q w g bytes) := by
  -- the three ways to miss the store go on alike, and none of them has found a result
  have hgoOn : ∀ {key? : Option ByteArray} {w' : World}, w'.tree = w.tree →
      key? = q.key? g bytes →
      (∀ s ∈ q.store?, q.config.batch.cache = true → ∀ r, stored s w.tree
        (Digest.resultKey bytes g.name q.config.pipeline) ≠ .ok (some r)) →
      GoesOn q k w (.looking g bytes) (look.goOn k g key? w') := by
    intro key? w' htree hkey habsent
    refine ⟨rfl, ?_⟩
    change Advance q k.path w.tree (.looking g bytes) w'.tree (.running g key?)
    rw [htree]
    exact .missed hkey habsent
  unfold look
  split
  · rename_i s hs
    by_cases hcache : q.config.batch.cache = true
    · have hkey : some (Digest.resultKey bytes g.name q.config.pipeline) = q.key? g bytes := by
        rw [Request.key?, hs, hcache]
        rfl
      rw [if_pos hcache]
      dsimp only
      split
      · rename_i r hr
        exact ⟨rfl, .found hs hcache hr⟩
      · rename_i hr
        refine hgoOn rfl hkey fun s' hs' _ r hstored ↦ ?_
        cases hs.symm.trans hs'
        cases hr.symm.trans hstored
      · rename_i remark hr
        refine hgoOn rfl hkey fun s' hs' _ r hstored ↦ ?_
        cases hs.symm.trans hs'
        cases hr.symm.trans hstored
    · rw [if_neg hcache]
      exact hgoOn rfl (by simp [Request.key?, hcache]) fun _ _ hon ↦ absurd hon hcache
  · rename_i hs
    refine hgoOn rfl (by simp [Request.key?, hs]) fun s hs' ↦ ?_
    cases hs.symm.trans hs'

private theorem run_goesOn {g : Graph} {key? : Option ByteArray} :
    GoesOn q k w (.running g key?) (k.runUnless (fun _ ↦ false) q w g key?) := by
  let c : Pipeline.Context := ⟨q.config.pipeline, k.path, q.level, k.span.id, false⟩
  have hfindings : (Pipeline.runUnless (fun _ ↦ false) c w.recorder (some g)).1.map
      Pipeline.Result.findings = Pipeline.findings q.config.pipeline g :=
    Pipeline.findings_of_run (c := c) rfl w.recorder g
  rw [runUnless]
  generalize Pipeline.runUnless _ c w.recorder (some g) = outcome at hfindings ⊢
  obtain ⟨result, journal⟩ := outcome
  cases result with
  | ok r => exact ⟨rfl, .ran hfindings.symm⟩
  | error f =>
    simp only [takeOver]
    rw [GoesOn, (fail_spec _ _ _ _ _).1, (fail_spec _ _ _ _ _).2.1, (fail_spec _ _ _ _ _).2.2]
    exact ⟨rfl, .broken hfindings.symm⟩

private theorem store_goesOn {r : Pipeline.Result} {key? : Option ByteArray} :
    GoesOn q k w (.storing r key?) (k.store q w r key?) := by
  unfold store
  dsimp only
  split
  · rename_i s key hs
    have hstored : Advance q k.path w.tree (.storing r (some key))
        (s.insert w.tree key (.ofResult r)).2 (.writing r false) := .stored hs
    split
    · rename_i tree hinsert
      rw [hinsert] at hstored
      exact ⟨rfl, hstored⟩
    · rename_i e tree hinsert
      rw [hinsert] at hstored
      exact ⟨rfl, hstored⟩
  · rename_i hnot
    refine ⟨rfl, .unstored ?_⟩
    by_contra hboth
    rw [not_or] at hboth
    obtain ⟨s, hs⟩ := Option.ne_none_iff_exists'.mp hboth.1
    obtain ⟨key, hkey⟩ := Option.ne_none_iff_exists'.mp hboth.2
    exact hnot s key hs hkey

private theorem write_goesOn {r : Pipeline.Result} {cached : Bool} :
    GoesOn q k w (.writing r cached) (k.write q w r cached) := by
  unfold write
  split
  · rename_i tree hopen
    exact ⟨rfl, .unasked hopen⟩
  · rename_i output tree hopen
    exact ⟨rfl, .opened hopen⟩
  · rename_i f tree hopen
    rw [GoesOn, (fail_spec _ _ _ _ _).1, (fail_spec _ _ _ _ _).2.1, (fail_spec _ _ _ _ _).2.2]
    exact ⟨rfl, .unopened hopen⟩

/-- A step of a worker is one of the ways in which it can go on. -/
theorem step_goesOn (q : Request) (k : Worker) (w : World) :
    GoesOn q k w k.phase (k.step q w) := by
  rw [step, stepUnless]
  cases hphase : k.phase with
  | waiting => exact ⟨rfl, .started⟩
  | loading => exact load_goesOn
  | looking g bytes => exact look_goesOn
  | running g key? => exact run_goesOn
  | storing r key? => exact store_goesOn
  | writing r cached => exact write_goesOn
  | filling r cached output => exact ⟨rfl, .filled⟩
  | ended o => exact ⟨rfl, by rw [hphase]; exact .idle⟩

end Worker

/-! ## Progress

Each phase has a number of steps that are left at most, and each step takes at least one off. Seven
are enough from the beginning, whatever the steps find. -/

/-- The number of steps that are left at most. -/
def Phase.stepsLeft : Phase → Nat
  | .waiting => 7
  | .loading => 6
  | .looking .. => 5
  | .running .. => 4
  | .storing .. => 3
  | .writing .. => 2
  | .filling .. => 1
  | .ended _ => 0

theorem Advance.stepsLeft_le {q : Request} {phase phase' : Phase}
    (h : Advance q path t phase t' phase') : phase'.stepsLeft ≤ phase.stepsLeft - 1 := by
  cases h <;> simp [Phase.stepsLeft]

theorem Phase.exists_of_stepsLeft {phase : Phase} (h : phase.stepsLeft = 0) :
    ∃ o, phase = .ended o := by
  cases phase with
  | ended o => exact ⟨o, rfl⟩
  | _ => cases h

end Batch

end Flowgraph
