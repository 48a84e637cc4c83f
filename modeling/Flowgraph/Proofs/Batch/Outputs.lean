import Flowgraph.Proofs.Batch.Turns
import Flowgraph.Proofs.Pipeline.Storing

/-!
# What output files hold

The path of an output comes from the stem of its input alone. So files with the same stem, in two
directories or in the two forms, share one output, which every one of them reports as its own.
Files with different stems have outputs at different places, which neither the stored results nor
the directories that workers make get in the way of.

## Sharing an output

An output is opened, which empties it, and filled a step later. Workers of one stem can come between
each other, so that the file is empty although one of them has ended, or holds the beginning of one
graph and the end of another one:

```text
open long, open short, fill long, fill short
```

Nothing worse can happen. While the workers are at it, every byte of the file is one that somebody
who has ended has written at its place (`Blend`), and when none of them is between opening and
filling, the file is as long as one of their graphs (`Mixture`). A stem that no other file has
leaves no choice: the output holds the graph of its file (`read_output`).

The invariant is `Filed`. It says what is true of the output of a stem from the moment somebody has
opened it, and a step of a worker either opens an output, or fills the one it has opened, or leaves
the outputs alone (`Advance.output_cases`).
-/

namespace Flowgraph.Batch

open Files (Tree)

variable {q : Request} {path : String} {t t' : Tree} {phase phase' : Phase}

/-! ## Bytes over bytes

Filling writes from the first byte on and leaves what stands behind. What several workers have put
over each other is therefore described place by place: each byte is from one of them, and the length
is that of one of them. If all of them have written the same bytes, or only one has written at all,
this pins the file down. -/

/-- Each byte is the one that some of the byte strings has at its place. -/
def Blend (S : Set ByteArray) (c : ByteArray) : Prop :=
  ∀ (n : Nat) (b : UInt8), c.data[n]? = some b → ∃ e ∈ S, e.data[n]? = some b

/-- What a file holds that is opened and filled by some who write the byte strings of `S`: a blend,
as long as one of them unless it was opened again and is not filled yet. -/
structure Mixture (S : Set ByteArray) (filling : Prop) (c : ByteArray) : Prop where
  blend : Blend S c
  size : c = .empty ∨ ∃ e ∈ S, c.size = e.size
  filled : ¬filling → ∃ e ∈ S, c.size = e.size

section Mixture

variable {S S' : Set ByteArray} {filling filling' : Prop} {c e : ByteArray}

private theorem Mixture.mono (h : Mixture S filling c) (hS : S ⊆ S')
    (hfilling : filling → filling') : Mixture S' filling' c where
  blend n b hb := (h.blend n b hb).imp fun _ he ↦ ⟨hS he.1, he.2⟩
  size := h.size.imp_right fun ⟨e, he, hsize⟩ ↦ ⟨e, hS he, hsize⟩
  filled hnot := (h.filled fun hf ↦ hnot (hfilling hf)).imp fun _ he ↦ ⟨hS he.1, he.2⟩

private theorem mixture_empty (hfilling : filling) : Mixture S filling .empty where
  blend _ _ hb := by cases hb
  size := Or.inl rfl
  filled hnot := absurd hfilling hnot

/-- Filling a file brings in what is written, and the file is as long as before or as what is
written, whichever is longer. -/
private theorem Mixture.overlay (h : Mixture S filling c) (he : e ∈ S') (hS : S ⊆ S') :
    Mixture S' filling' (Tree.overlay e c) := by
  have hsize : ∃ e' ∈ S', (Tree.overlay e c).size = e'.size := by
    rw [Tree.size_overlay]
    rcases Nat.le_total c.size e.size with hle | hle
    · exact ⟨e, he, max_eq_left hle⟩
    · rw [max_eq_right hle]
      rcases h.size with rfl | ⟨e', he', heq⟩
      · exact ⟨e, he, le_antisymm (Nat.zero_le _) hle⟩
      · exact ⟨e', hS he', heq⟩
  refine ⟨fun n b hb ↦ ?_, Or.inr hsize, fun _ ↦ hsize⟩
  rw [Tree.getElem?_data_overlay] at hb
  split at hb
  · exact ⟨e, he, hb⟩
  · exact (h.blend n b hb).imp fun _ he' ↦ ⟨hS he'.1, he'.2⟩

private theorem Blend.eq (h : Blend S c) (hS : ∀ e' ∈ S, e' = e) (hsize : c.size = e.size) :
    c = e := by
  refine ByteArray.ext (Array.ext (by simpa using hsize) fun n hn hn' ↦ ?_)
  obtain ⟨e', he', hb⟩ := h n _ (Array.getElem?_eq_getElem hn)
  rw [hS e' he', Array.getElem?_eq_getElem hn'] at hb
  exact (Option.some.inj hb).symm

end Mixture

/-! ## Outputs that a step opens and fills

From the cases of a step to what it means for outputs. A step opens the output of its worker, which
leaves the file empty, or fills the output that its worker has opened, or it is one of the others,
which do not touch the place of any output. -/

private theorem outputPath_cases (directory path path' : String) (f : GraphFormat) (t : Tree) :
    GraphFile.stem path = GraphFile.stem path' ∨
      t.placeOf (Worker.outputPath directory path f)
        ≠ t.placeOf (Worker.outputPath directory path' f) := by
  by_cases hstem : GraphFile.stem path = GraphFile.stem path'
  · exact Or.inl hstem
  · exact Or.inr (Tree.placeOf_ne (endsIn_outputPath ..) (endsIn_outputPath ..)
      (fun hname ↦ hstem (outputName_inj hname)) t)

theorem outputPath_congr {path path' : String} (h : GraphFile.stem path = GraphFile.stem path')
    (directory : String) (f : GraphFormat) :
    Worker.outputPath directory path f = Worker.outputPath directory path' f := by
  rw [Worker.outputPath, Worker.outputPath, h]

/-- An output with the graph of a result, opened in the format that the configuration names. -/
def Opens (q : Request) (path : String) (t : Tree) (f : GraphFormat) (r : Pipeline.Result)
    (output : GraphFile.Opened) : Prop :=
  GraphFormat.parse q.config.output.format = .ok f ∧
    output = ⟨Worker.outputPath q.config.output.directory path f,
      t.placeOf (Worker.outputPath q.config.output.directory path f), f.encode r.graph⟩

private theorem Opens.changes {f : GraphFormat} {r : Pipeline.Result} {output : GraphFile.Opened}
    {P : Files.Place → Prop} (h : Opens q path t f r output) (hchanges : Tree.Changes P t t') :
    Opens q path t' f r output :=
  ⟨h.1, by rw [hchanges.placeOf_eq, ← h.2]⟩

def Phase.isFilling : Phase → Bool
  | .filling .. => true
  | _ => false

def Aside (t : Tree) (p : Files.Place) : Prop :=
  ∀ directory path f, t.placeOf (Worker.outputPath directory path f) ≠ p

private theorem Advance.output_cases (hdirectory : q.config.output.directory ≠ "")
    (hemits : q.config.emits "graph" = true) (h : Advance q path t phase t' phase') :
    (∃ f r cached output, Opens q path t f r output ∧ phase = .writing r cached ∧
      phase' = .filling r cached output ∧ t'.Leads output.path ∧
      Tree.Changes (· = output.place) t t' ∧ t'.get? output.place = some (.file .empty)) ∨
    (∃ r cached output, phase = .filling r cached output ∧
      phase' = .ended ⟨path, some r, output.path, cached, none⟩ ∧ t' = output.write t) ∨
    Tree.Changes (Aside t) t t' ∧ phase.isFilling = false ∧ phase'.isFilling = false ∧
      ∀ o, phase' = .ended o → o.failure? = none → phase = .ended o := by
  cases h with
  | started | loaded _ | found _ _ _ | missed _ _ | ran _ | unstored _ =>
    exact Or.inr (Or.inr ⟨.refl _ t, rfl, rfl, fun o ho ↦ Phase.noConfusion ho⟩)
  | unloaded _ | broken _ =>
    refine Or.inr (Or.inr ⟨.refl _ t, rfl, rfl, fun o ho hnone ↦ ?_⟩)
    rw [← Phase.ended.inj ho] at hnone
    cases hnone
  | idle => exact Or.inr (Or.inr ⟨.refl _ t, rfl, rfl, fun _ ho _ ↦ ho⟩)
  | @stored r s key hs =>
    refine Or.inr (Or.inr ⟨?_, rfl, rfl, fun o ho ↦ Phase.noConfusion ho⟩)
    rcases insert_changes s t key (.ofResult r) with
      ⟨t₁, hinsert, hchanges, -⟩ | ⟨e, t₁, hinsert, hchanges⟩
    · rw [hinsert]
      refine hchanges.mono ?_
      rintro p rfl directory path f
      exact Tree.placeOf_ne (endsIn_outputPath ..) (endsIn_pathOf s key)
        (keyName_ne_outputName key path f).symm t
    · rw [hinsert]
      exact hchanges.mono fun _ ↦ False.elim
  | @unasked _ r cached hopen =>
    rcases openOutput_cases q.config t path r.graph with
      ⟨hno, -⟩ | ⟨f, output, t₁, -, hok, -⟩ | ⟨e, t₁, herror, -⟩
    · simp [hdirectory, hemits] at hno
    · cases hopen.symm.trans hok
    · cases hopen.symm.trans herror
  | @opened _ r cached output hopen =>
    rcases openOutput_cases q.config t path r.graph with
      ⟨-, hno⟩ | ⟨f, output', t₁, hf, hok, houtput, hleads, hchanges, hempty⟩ | ⟨e, t₁, herror, -⟩
    · cases hopen.symm.trans hno
    · cases hopen.symm.trans hok
      exact Or.inl ⟨f, r, cached, output, ⟨hf, houtput⟩, rfl, rfl, hleads, hchanges, hempty⟩
    · cases hopen.symm.trans herror
  | @unopened _ r cached failure hopen =>
    rcases openOutput_cases q.config t path r.graph with
      ⟨-, hno⟩ | ⟨f, output, t₁, -, hok, -⟩ | ⟨e, t₁, herror, hchanges⟩
    · cases hopen.symm.trans hno
    · cases hopen.symm.trans hok
    · cases hopen.symm.trans herror
      refine Or.inr (Or.inr ⟨hchanges.mono fun _ ↦ False.elim, rfl, rfl, fun o ho hnone ↦ ?_⟩)
      rw [← Phase.ended.inj ho] at hnone
      cases hnone
  | @filled r cached output => exact Or.inr (Or.inl ⟨r, cached, output, rfl, rfl, rfl⟩)

namespace Shop

variable {s s' : Shop} {i : Nat} {h : Hand} {k : Worker} {f : GraphFormat} {stem : String}

/-! ## The workers of a stem

At any time some workers of a stem have ended with success, some have opened the output and not
filled it yet, and the others do not count. `written` has the graphs of the first, as they are
encoded, `Filling` says that there is a worker of the second kind, and `Held` what the file holds in
between. -/

/-- The encodings of the graphs of files with a stem that ended with success. -/
def written (s : Shop) (f : GraphFormat) (stem : String) : Set ByteArray :=
  {e | ∃ j o r, s.outcome? j = some o ∧ o.failure? = none ∧ o.result? = some r ∧
    GraphFile.stem o.path = stem ∧ e = f.encode r.graph}

/-- A worker of a file with a stem has an output that is open. -/
def Filling (s : Shop) (stem : String) : Prop :=
  ∃ (j : Nat) (h : Hand), s.hands[j]? = some h ∧ h.worker.phase.isFilling = true ∧
    GraphFile.stem h.worker.path = stem

/-- Somebody has opened the output of a stem. -/
def Touched (s : Shop) (f : GraphFormat) (stem : String) : Prop :=
  s.Filling stem ∨ (s.written f stem).Nonempty

/-- What the output of a file holds that somebody has opened. -/
structure Held (q : Request) (s : Shop) (f : GraphFormat) (path : String) : Prop where
  leads : s.world.tree.Leads (Worker.outputPath q.config.output.directory path f)
  content : ∃ c, s.world.tree.get? (s.world.tree.placeOf
      (Worker.outputPath q.config.output.directory path f)) = some (.file c) ∧
    Mixture (s.written f (GraphFile.stem path)) (s.Filling (GraphFile.stem path)) c

private theorem Held.read_eq (hheld : Held q s f path) : ∃ c,
    s.world.tree.read (Worker.outputPath q.config.output.directory path f) = .ok c ∧
      Mixture (s.written f (GraphFile.stem path)) (s.Filling (GraphFile.stem path)) c := by
  obtain ⟨c, hfile, hmixture⟩ := hheld.content
  exact ⟨c, Tree.read_eq_ok_iff.mpr ⟨hheld.leads, hfile⟩, hmixture⟩

/-- The workers of one request, with what their outputs hold. -/
structure Filed (q : Request) (s : Shop) : Prop where
  request : ∀ {i : Nat} {h : Hand}, s.hands[i]? = some h → h.request = q
  path : ∀ {i : Nat} {h : Hand}, s.hands[i]? = some h → q.files[i]? = some h.worker.path
  opened : ∀ {i : Nat} {h : Hand} {r cached output}, s.hands[i]? = some h →
    h.worker.phase = .filling r cached output → ∃ f, Opens q h.worker.path s.world.tree f r output
  ended : ∀ {i : Nat} {o : Outcome}, s.outcome? i = some o → o.failure? = none →
    q.files[i]? = some o.path ∧ ∃ f r, GraphFormat.parse q.config.output.format = .ok f ∧
      o.result? = some r ∧ o.output = Worker.outputPath q.config.output.directory o.path f
  held : ∀ {f : GraphFormat} {path : String}, GraphFormat.parse q.config.output.format = .ok f →
    s.Touched f (GraphFile.stem path) → Held q s f path

private theorem filed_start (q : Request) (w : World) : Filed q (start q w) := by
  have hhand : ∀ {i : Nat} {h : Hand}, (start q w).hands[i]? = some h →
      ∃ path, q.files[i]? = some path ∧ h = ⟨q, .fresh path⟩ := by
    intro i h hi
    rw [start, List.getElem?_map] at hi
    obtain ⟨path, hpath, rfl⟩ := Option.map_eq_some_iff.mp hi
    exact ⟨path, hpath, rfl⟩
  have hfilling : ∀ {i : Nat} {h : Hand}, (start q w).hands[i]? = some h →
      h.worker.phase.isFilling = false := by
    intro i h hi
    obtain ⟨path, -, rfl⟩ := hhand hi
    rfl
  have hended : ∀ {i : Nat} {o : Outcome}, (start q w).outcome? i ≠ some o := by
    intro i o ho
    obtain ⟨h, hi, hend⟩ := outcome?_eq_some.mp ho
    obtain ⟨path, -, rfl⟩ := hhand hi
    cases hend
  exact {
    request := fun hi ↦ by
      obtain ⟨path, -, rfl⟩ := hhand hi
      rfl
    path := fun hi ↦ by
      obtain ⟨path, hpath, rfl⟩ := hhand hi
      exact hpath
    opened := fun hi hphase ↦ by
      have hnot := hfilling hi
      rw [hphase] at hnot
      cases hnot
    ended := fun ho ↦ absurd ho hended
    held := by
      rintro f path - (⟨j, h, hj, hopen, -⟩ | ⟨e, j, o, r, ho, -⟩)
      · cases hopen.symm.trans (hfilling hj)
      · exact absurd ho hended }

/-! ## What a step does to the workers of a stem

One lemma for each way in which a step can go. Steps for another stem change another file. A step of
the stem that opens the output takes all bytes away and the blend is that of nobody; one that fills
it adds its bytes to the blend. What does neither keeps everything. -/

namespace Worked

variable (hw : Worked s i h s' k)

include hw

theorem outcome?_cases {j : Nat} {o : Outcome} (ho : s'.outcome? j = some o) :
    s.outcome? j = some o ∨ j = i ∧ k.phase = .ended o := by
  obtain ⟨hand, hj, hend⟩ := outcome?_eq_some.mp ho
  rcases hw.hand_cases hj with hj | ⟨rfl, rfl⟩
  · exact Or.inl (outcome?_eq_some.mpr ⟨hand, hj, hend⟩)
  · exact Or.inr ⟨rfl, hend⟩

theorem written_subset : s.written f stem ⊆ s'.written f stem := by
  rintro e ⟨j, o, r, ho, hrest⟩
  exact ⟨j, o, r, hw.outcome?_mono ho, hrest⟩

/-- A step that ends nothing with success leaves what is written for a stem. -/
theorem mem_written {e : ByteArray} (he : e ∈ s'.written f stem) : e ∈ s.written f stem ∨
    ∃ o r, k.phase = .ended o ∧ o.failure? = none ∧ o.result? = some r ∧
      GraphFile.stem o.path = stem ∧ e = f.encode r.graph := by
  obtain ⟨j, o, r, ho, hrest⟩ := he
  rcases hw.outcome?_cases ho with ho | ⟨-, ho⟩
  · exact Or.inl ⟨j, o, r, ho, hrest⟩
  · exact Or.inr ⟨o, r, ho, hrest⟩

/-- An output that is open stays open, unless it is the one of the worker at `i`. -/
theorem filling_mono (hfilling : s.Filling stem) : s'.Filling stem ∨
    GraphFile.stem h.worker.path = stem ∧ h.worker.phase.isFilling = true := by
  obtain ⟨j, hand, hj, hopen, hstem⟩ := hfilling
  by_cases hji : j = i
  · rw [hji, hw.hand, Option.some.injEq] at hj
    subst hj
    exact Or.inr ⟨hstem, hopen⟩
  · exact Or.inl ⟨j, hand, (hw.getElem?_of_ne hji).trans hj, hopen, hstem⟩

theorem filling_cases (hfilling : s'.Filling stem) : s.Filling stem ∨
    GraphFile.stem h.worker.path = stem ∧ k.phase.isFilling = true := by
  obtain ⟨j, hand, hj, hopen, hstem⟩ := hfilling
  rcases hw.hand_cases hj with hj | ⟨-, rfl⟩
  · exact Or.inl ⟨j, hand, hj, hopen, hstem⟩
  · rw [hw.path_eq] at hstem
    exact Or.inr ⟨hstem, hopen⟩

/-- A step that leaves an output alone leaves what it holds. -/
theorem held {P : Files.Place → Prop} (hheld : Held q s f path)
    (hchanges : Tree.Changes P s.world.tree s'.world.tree)
    (hP : ¬P (s.world.tree.placeOf (Worker.outputPath q.config.output.directory path f)))
    (hfilling : s.Filling (GraphFile.stem path) → s'.Filling (GraphFile.stem path)) :
    Held q s' f path := by
  obtain ⟨c, hfile, hmixture⟩ := hheld.content
  refine ⟨hchanges.leads hheld.leads, c, ?_, hmixture.mono hw.written_subset hfilling⟩
  have hread := hchanges.read (Tree.read_eq_ok_iff.mpr ⟨hheld.leads, hfile⟩) hP
  exact (Tree.read_eq_ok_iff.mp hread).2

end Worked

namespace Filed

variable (hs : Filed q s) (hw : Worked s i h s' k)

include hs hw

/-- What is left to show of a step that changes files at the places of `P`: what the worker itself
has come to, and what the outputs hold. -/
theorem worked {P : Files.Place → Prop}
    (hchanges : Tree.Changes P s.world.tree s'.world.tree)
    (hopened : ∀ r cached output, k.phase = .filling r cached output →
      ∃ f, Opens q h.worker.path s.world.tree f r output)
    (hended : ∀ o, k.phase = .ended o → o.failure? = none → o.path = h.worker.path ∧
      ∃ f r, GraphFormat.parse q.config.output.format = .ok f ∧ o.result? = some r ∧
        o.output = Worker.outputPath q.config.output.directory o.path f)
    (hheld : ∀ {f : GraphFormat} {path : String},
      GraphFormat.parse q.config.output.format = .ok f → s'.Touched f (GraphFile.stem path) →
        Held q s' f path) : Filed q s' where
  request hj := by
    rcases hw.hand_cases hj with hj | ⟨-, rfl⟩
    · exact hs.request hj
    · have hrequest := hs.request hw.hand
      exact hrequest
  path hj := by
    rcases hw.hand_cases hj with hj | ⟨rfl, rfl⟩
    · exact hs.path hj
    · exact (hs.path hw.hand).trans (congrArg some hw.path_eq.symm)
  opened hj hphase := by
    rcases hw.hand_cases hj with hj | ⟨rfl, rfl⟩
    · exact (hs.opened hj hphase).imp fun _ hopens ↦ hopens.changes hchanges
    · rw [hw.path_eq]
      exact (hopened _ _ _ hphase).imp fun _ hopens ↦ hopens.changes hchanges
  ended ho hnone := by
    rcases hw.outcome?_cases ho with ho | ⟨rfl, ho⟩
    · exact hs.ended ho hnone
    · obtain ⟨hpath, hrest⟩ := hended _ ho hnone
      exact ⟨(hs.path hw.hand).trans (congrArg some hpath.symm), hrest⟩
  held := hheld

private theorem aside (hchanges : Tree.Changes (Aside s.world.tree) s.world.tree s'.world.tree)
    (hbefore : h.worker.phase.isFilling = false) (hafter : k.phase.isFilling = false)
    (hended : ∀ o, k.phase = .ended o → o.failure? = none → h.worker.phase = .ended o) :
    Filed q s' := by
  have hold : ∀ o, k.phase = .ended o → o.failure? = none → s.outcome? i = some o :=
    fun o ho hnone ↦ outcome?_eq_some.mpr ⟨h, hw.hand, hended o ho hnone⟩
  refine hs.worked hw hchanges ?_ ?_ fun {f path} hf htouched ↦ ?_
  · intro r cached output hphase
    rw [hphase] at hafter
    cases hafter
  · intro o ho hnone
    obtain ⟨hpath, hrest⟩ := hs.ended (hold o ho hnone) hnone
    exact ⟨Option.some.inj (hpath.symm.trans (hs.path hw.hand)), hrest⟩
  · have htouched' : s.Touched f (GraphFile.stem path) := by
      rcases htouched with hfilling | ⟨e, he⟩
      · rcases hw.filling_cases hfilling with hfilling | ⟨-, hopen⟩
        · exact Or.inl hfilling
        · cases hafter.symm.trans hopen
      · rcases hw.mem_written he with he | ⟨o, r, ho, hnone, hrest⟩
        · exact Or.inr ⟨e, he⟩
        · exact Or.inr ⟨e, i, o, r, hold o ho hnone, hnone, hrest⟩
    refine hw.held (hs.held hf htouched') hchanges (fun haside ↦ haside _ _ _ rfl) fun hfilling ↦ ?_
    refine (hw.filling_mono hfilling).resolve_right ?_
    rintro ⟨-, hopen⟩
    cases hbefore.symm.trans hopen

/-- A step leaves the outputs of other stems than that of its file. -/
theorem other_stem {P : Files.Place → Prop}
    (hchanges : Tree.Changes P s.world.tree s'.world.tree)
    (hP : ∀ p, P p → p = s.world.tree.placeOf
      (Worker.outputPath q.config.output.directory h.worker.path f))
    (hended : ∀ o, k.phase = .ended o → o.path = h.worker.path)
    (hf : GraphFormat.parse q.config.output.format = .ok f)
    (hstem : GraphFile.stem h.worker.path ≠ GraphFile.stem path)
    (htouched : s'.Touched f (GraphFile.stem path)) : Held q s' f path := by
  have htouched' : s.Touched f (GraphFile.stem path) := by
    rcases htouched with hfilling | ⟨e, he⟩
    · exact Or.inl ((hw.filling_cases hfilling).resolve_right fun hopen ↦ hstem hopen.1)
    · rcases hw.mem_written he with he | ⟨o, r, ho, -, -, hpath, -⟩
      · exact Or.inr ⟨e, he⟩
      · rw [hended o ho] at hpath
        exact absurd hpath hstem
  have hne := (outputPath_cases q.config.output.directory h.worker.path path f
    s.world.tree).resolve_left hstem
  refine hw.held (hs.held hf htouched') hchanges (fun hp ↦ hne (hP _ hp).symm) fun hfilling ↦ ?_
  exact (hw.filling_mono hfilling).resolve_right fun hopen ↦ hstem hopen.1

private theorem opening {f₀ : GraphFormat} {r : Pipeline.Result} {cached : Bool}
    {output : GraphFile.Opened} (hopens : Opens q h.worker.path s.world.tree f₀ r output)
    (hphase : k.phase = .filling r cached output) (hleads : s'.world.tree.Leads output.path)
    (hchanges : Tree.Changes (· = output.place) s.world.tree s'.world.tree)
    (hempty : s'.world.tree.get? output.place = some (.file .empty)) : Filed q s' := by
  have hended : ∀ o, k.phase ≠ .ended o := by
    rw [hphase]
    exact fun _ ho ↦ Phase.noConfusion ho
  obtain ⟨hf₀, houtput⟩ := hopens
  refine hs.worked hw hchanges ?_ (fun o ho ↦ absurd ho (hended o)) fun {f path} hf htouched ↦ ?_
  · intro r' cached' output' hphase'
    cases hphase.symm.trans hphase'
    exact ⟨f₀, hf₀, houtput⟩
  · cases hf₀.symm.trans hf
    by_cases hstem : GraphFile.stem h.worker.path = GraphFile.stem path
    · have hfilling : s'.Filling (GraphFile.stem path) := by
        refine ⟨i, _, hw.getElem?_self, ?_, ?_⟩
        · rw [hphase]
          rfl
        · rw [← hstem, ← hw.path_eq]
      rw [houtput] at hleads hempty
      rw [outputPath_congr hstem] at hleads hempty
      refine ⟨hleads, .empty, ?_, mixture_empty hfilling⟩
      rw [hchanges.placeOf_eq]
      exact hempty
    · refine hs.other_stem hw hchanges (fun p hp ↦ ?_) (fun o ho ↦ absurd ho (hended o)) hf₀ hstem
        htouched
      rw [hp, houtput]

private theorem filling {r : Pipeline.Result} {cached : Bool} {output : GraphFile.Opened}
    (hphase : h.worker.phase = .filling r cached output)
    (hphase' : k.phase = .ended ⟨h.worker.path, some r, output.path, cached, none⟩)
    (htree : s'.world.tree = output.write s.world.tree) : Filed q s' := by
  obtain ⟨f₀, hf₀, houtput⟩ := hs.opened hw.hand hphase
  have hchanges : Tree.Changes (· = output.place) s.world.tree s'.world.tree := by
    rw [htree]
    exact Tree.changes_fill ..
  have hended : ∀ o, k.phase = .ended o →
      o = ⟨h.worker.path, some r, output.path, cached, none⟩ :=
    fun o ho ↦ Phase.ended.inj (ho.symm.trans hphase')
  refine hs.worked hw hchanges ?_ (fun o ho _ ↦ ?_) fun {f path} hf htouched ↦ ?_
  · intro r' cached' output' hopen
    cases hphase'.symm.trans hopen
  · rw [hended o ho]
    exact ⟨rfl, f₀, r, hf₀, rfl, by rw [houtput]⟩
  · cases hf₀.symm.trans hf
    by_cases hstem : GraphFile.stem h.worker.path = GraphFile.stem path
    · have hopen : s.Filling (GraphFile.stem path) :=
        ⟨i, h, hw.hand, by rw [hphase]; rfl, hstem⟩
      have hheld := hs.held hf₀ (Or.inl hopen)
      obtain ⟨c, hfile, hmixture⟩ := hheld.content
      have hwritten : f₀.encode r.graph ∈ s'.written f₀ (GraphFile.stem path) :=
        ⟨i, _, r, outcome?_eq_some.mpr ⟨_, hw.getElem?_self, hphase'⟩, rfl, rfl, hstem, rfl⟩
      refine ⟨hchanges.leads hheld.leads, _, ?_, hmixture.overlay hwritten hw.written_subset⟩
      rw [← outputPath_congr hstem] at hfile ⊢
      rw [hchanges.placeOf_eq, htree, GraphFile.Opened.write, houtput, Tree.get?_fill hfile,
        if_pos rfl]
    · refine hs.other_stem hw hchanges (fun p hp ↦ ?_) (fun o ho ↦ by rw [hended o ho]) hf₀ hstem
        htouched
      rw [hp, houtput]

end Filed

private theorem Filed.work (hdirectory : q.config.output.directory ≠ "")
    (hemits : q.config.emits "graph" = true) (hs : Filed q s) (i : Nat) : Filed q (s.work i) := by
  cases hi : s.hands[i]? with
  | none => rwa [work_of_none hi]
  | some h =>
    obtain ⟨k, hw⟩ := worked_of_work hi
    have hadvance := hw.advance
    rw [hs.request hi] at hadvance
    rcases hadvance.output_cases hdirectory hemits with
      ⟨f, r, cached, output, hopens, -, hphase, hleads, hchanges, hempty⟩ |
        ⟨r, cached, output, hphase, hphase', htree⟩ | ⟨hchanges, hbefore, hafter, hended⟩
    · exact hs.opening hw hopens hphase hleads hchanges hempty
    · exact hs.filling hw hphase hphase' htree
    · exact hs.aside hw hchanges hbefore hafter hended

private theorem filed_follow (hdirectory : q.config.output.directory ≠ "")
    (hemits : q.config.emits "graph" = true) : ∀ (schedule : List Nat) {s : Shop},
      Filed q s → Filed q (s.follow schedule)
  | [], _, hs => hs
  | i :: schedule, _, hs => filed_follow hdirectory hemits schedule (hs.work hdirectory hemits i)

private theorem not_filling (hs : Filed q s) (hended : ∀ (j : Nat) (path : String),
      q.files[j]? = some path → GraphFile.stem path = stem → ∃ o, s.outcome? j = some o) :
    ¬s.Filling stem := by
  rintro ⟨j, h, hj, hopen, hstem⟩
  obtain ⟨o, ho⟩ := hended j h.worker.path (hs.path hj) hstem
  obtain ⟨h', hj', hend⟩ := outcome?_eq_some.mp ho
  cases hj.symm.trans hj'
  rw [hend] at hopen
  cases hopen

/-- Every worker that is given its steps ends, in whatever order the workers take them. One that
ends with success names the output that comes from the stem of its file.

If no other file has this stem, the output holds the graph of the file. Otherwise, as soon as all
workers of the stem have ended, it is as long as the graph of one of those that ended with success,
and each of its bytes is the one at this place of the graph of one of them. -/
theorem read_output (hdirectory : q.config.output.directory ≠ "")
    (hemits : q.config.emits "graph" = true) (w : World) (schedule : List Nat) :
    let s := (start q w).follow schedule
    (∀ i < q.files.length, Worker.stepLimit ≤ schedule.count i → ∃ o, s.outcome? i = some o) ∧
    ∀ i o, s.outcome? i = some o → o.failure? = none →
      q.files[i]? = some o.path ∧ ∃ f r, GraphFormat.parse q.config.output.format = .ok f ∧
        o.result? = some r ∧
        o.output = Worker.outputPath q.config.output.directory o.path f ∧
        ((∀ j path, q.files[j]? = some path → GraphFile.stem path = GraphFile.stem o.path →
            j = i) →
          s.world.tree.read o.output = .ok (f.encode r.graph)) ∧
        ((∀ j path, q.files[j]? = some path → GraphFile.stem path = GraphFile.stem o.path →
            ∃ o', s.outcome? j = some o') →
          ∃ c, s.world.tree.read o.output = .ok c ∧
            Blend (s.written f (GraphFile.stem o.path)) c ∧
            ∃ e ∈ s.written f (GraphFile.stem o.path), c.size = e.size) := by
  intro s
  refine ⟨fun i hi hcount ↦ exists_outcome q w (List.getElem?_eq_getElem hi) hcount,
    fun i o ho hnone ↦ ?_⟩
  have hfiled : Filed q s := filed_follow hdirectory hemits schedule (filed_start q w)
  obtain ⟨hpath, f, r, hf, hr, houtput⟩ := hfiled.ended ho hnone
  have hmine : f.encode r.graph ∈ s.written f (GraphFile.stem o.path) :=
    ⟨i, o, r, ho, hnone, hr, rfl, rfl⟩
  obtain ⟨c, hread, hmixture⟩ := (hfiled.held hf (Or.inr ⟨_, hmine⟩)).read_eq
  refine ⟨hpath, f, r, hf, hr, houtput, fun halone ↦ ?_, fun hended ↦ ?_⟩
  · have honly : ∀ e ∈ s.written f (GraphFile.stem o.path), e = f.encode r.graph := by
      rintro e ⟨j, o', r', ho', hnone', hr', hstem, rfl⟩
      cases halone j o'.path (hfiled.ended ho' hnone').1 hstem
      cases ho.symm.trans ho'
      cases hr.symm.trans hr'
      rfl
    have hnot : ¬s.Filling (GraphFile.stem o.path) := by
      refine not_filling hfiled fun j path hj hstem ↦ ?_
      rw [halone j path hj hstem]
      exact ⟨o, ho⟩
    obtain ⟨e, he, hsize⟩ := hmixture.filled hnot
    rw [houtput, hread, hmixture.blend.eq honly (honly e he ▸ hsize)]
  · obtain ⟨e, he, hsize⟩ := hmixture.filled (not_filling hfiled hended)
    exact ⟨c, by rw [houtput, hread], hmixture.blend, e, he, hsize⟩

/-! ## Two files, one after the other

Two files in different directories with the same stem. With one job the second one replaces the
output of the first, which has been reported as written. -/

/-- A file with a block that only returns, in a graph with a name. -/
def leafText (name : String) : String := "name = \"" ++ name ++ "\"
[[block]]
kind = \"entry\"
[[block.op]]
op = \"return\"
"

/-- The graph of such a file. -/
def sampleLeaf (name : String) : Graph :=
  { (Graph.ofBlocks [(.entry, [.ret []])]).toOption.getD (.empty .empty) with name := name.toUTF8 }

/-- The files are read as the graphs, which stay the way they are and are told apart by their
texts. -/
theorem sampleLeaf_spec :
    (∀ name ∈ ["east", "west"], Textual.decode (leafText name).toUTF8 = .ok (sampleLeaf name) ∧
      (Pipeline.findings .default (sampleLeaf name)).map Pipeline.Findings.graph
        = .ok (sampleLeaf name)) ∧
    GraphFormat.text.encode (sampleLeaf "west") ≠ GraphFormat.text.encode (sampleLeaf "east") := by
  simp only [Textual.decode, Textual.GraphEntry.ofBytes, Toml.Document.ofBytes?, Toml.characters?,
    toList_eq_data]
  decide +kernel

/-- A file in the textual form is loaded as the graph that it is read as. -/
theorem load_text {t : Tree} {path : String} {bytes : ByteArray} {g : Graph}
    (hpath : GraphFormat.forPath path = .ok .text) (hread : t.read path = .ok bytes)
    (hdecode : Textual.decode bytes = .ok g) (hname : g.name.isEmpty = false) :
    GraphFile.load t path = .ok (g, bytes) := by
  rw [GraphFile.load, hpath, hread]
  simp only [Except.mapError, ok_bind, GraphFormat.decode, hdecode, hname, Bool.false_eq_true,
    if_false]
  rfl

theorem load_leafText {t : Tree} {path name : String} (hname : name ∈ ["east", "west"])
    (hpath : GraphFormat.forPath path = .ok .text)
    (hread : t.read path = .ok (leafText name).toUTF8) :
    GraphFile.load t path = .ok (sampleLeaf name, (leafText name).toUTF8) := by
  have hnamed : ∀ name ∈ ["east", "west"], (sampleLeaf name).name.isEmpty = false := by
    decide
  exact load_text hpath hread (sampleLeaf_spec.1 name hname).1 (hnamed name hname)

theorem exists_findings_sampleLeaf {name : String} (hname : name ∈ ["east", "west"]) :
    ∃ x, Pipeline.findings .default (sampleLeaf name) = .ok x ∧ x.graph = sampleLeaf name := by
  have hgraph := (sampleLeaf_spec.1 name hname).2
  cases hx : Pipeline.findings .default (sampleLeaf name) with
  | error f => rw [hx] at hgraph; cases hgraph
  | ok x => rw [hx] at hgraph; exact ⟨x, rfl, Except.ok.inj hgraph⟩

/-- Two files in two directories. -/
def sampleTree (stem : String) : Tree :=
  ⟨.directory [("a", .directory [("x.cfg.toml", .file (leafText "east").toUTF8)]),
    ("b", .directory [(stem ++ ".cfg.toml", .file (leafText "west").toUTF8)])], []⟩

/-- A batch of the two files, with outputs in the textual form. -/
def sampleRequest (stem : String) : Request where
  files := ["a/x.cfg.toml", "b/" ++ stem ++ ".cfg.toml"]
  config := { Config.default with output.directory := "out" }
  store? := none
  level := .off
  parent := 0
  canceled := false

/-- The output of the first file, and that of the second one if it has the same name. -/
def sampleOutput (name : String) : GraphFile.Opened :=
  ⟨"out/x.cfg.toml", ["out", "x.cfg.toml"], Textual.encode (sampleLeaf name)⟩

/-- What opening the output of the first file comes to. -/
def sampleOpen (stem : String) : Except Failure (Option GraphFile.Opened) × Tree :=
  Worker.openOutput (sampleRequest stem).config (sampleTree stem) "a/x.cfg.toml"
    (sampleLeaf "east")

/-- The tree with the output of the first file. -/
def sampleWritten (stem : String) : Tree := (sampleOutput "east").write (sampleOpen stem).2

/-- Files and outputs are in the textual form, and the files may have one name or two. Both outputs
can be opened, and in the case of one name at the same place, the second file being as it was. -/
theorem sampleRequest_spec :
    GraphFormat.parse Config.default.output.format = .ok .text ∧
      (∀ path ∈ ["a/x.cfg.toml", "b/x.cfg.toml"], GraphFormat.forPath path = .ok .text) ∧
      GraphFile.stem "b/y.cfg.toml" ≠ GraphFile.stem "a/x.cfg.toml" ∧
      (∀ stem ∈ ["x", "y"], (sampleOpen stem).1 = .ok (some (sampleOutput "east"))) ∧
      (sampleWritten "x").read "b/x.cfg.toml" = .ok (leafText "west").toUTF8 ∧
      (Worker.openOutput (sampleRequest "x").config (sampleWritten "x") "b/x.cfg.toml"
        (sampleLeaf "west")).1 = .ok (some (sampleOutput "west")) := by
  decide +kernel

/-- The two workers after they worked one after the other. -/
def sampleShop (stem : String) : Shop :=
  (start (sampleRequest stem) ⟨sampleTree stem, .start, #[], .empty⟩).follow (inOrder 0 2)

/-- The first of the two files by itself. -/
def sampleFirst (stem : String) : Outcome × World :=
  processFile (sampleRequest stem) ⟨sampleTree stem, .start, #[], .empty⟩ "a/x.cfg.toml"

theorem sampleFirst_spec {stem : String} (hstem : stem ∈ ["x", "y"]) :
    (∃ r, r.graph = sampleLeaf "east" ∧
      (sampleFirst stem).1 = ⟨"a/x.cfg.toml", some r, "out/x.cfg.toml", false, none⟩) ∧
    (sampleFirst stem).2.tree = sampleWritten stem := by
  have hload : GraphFile.load (sampleTree stem) "a/x.cfg.toml"
      = .ok (sampleLeaf "east", (leafText "east").toUTF8) :=
    load_leafText (by decide) (sampleRequest_spec.2.1 _ (by decide)) rfl
  obtain ⟨x, hx, hxgraph⟩ := exists_findings_sampleLeaf (show "east" ∈ _ by decide)
  have hopen : Worker.openOutput (sampleRequest stem).config (sampleTree stem) "a/x.cfg.toml"
      x.graph = (.ok (some (sampleOutput "east")), (sampleOpen stem).2) := by
    rw [hxgraph, ← sampleRequest_spec.2.2.2.1 stem hstem]
    rfl
  let w : World := ⟨sampleTree stem, .start, #[], .empty⟩
  obtain ⟨⟨r, hout, rfl⟩, htree⟩ := processFile_of_load (q := sampleRequest stem) (w := w)
    rfl hload hx hopen
  exact ⟨⟨r, hxgraph, hout⟩, htree⟩

theorem sampleShop_spec (stem : String) :
    (sampleShop stem).outcome? 0 = some (sampleFirst stem).1 ∧
      (sampleShop stem).outcome? 1 = some (processFile (sampleRequest stem) (sampleFirst stem).2
        ("b/" ++ stem ++ ".cfg.toml")).1 ∧
      (sampleShop stem).world = (processFile (sampleRequest stem) (sampleFirst stem).2
        ("b/" ++ stem ++ ".cfg.toml")).2 :=
  follow_inOrder_pair rfl _

theorem read_output_sampleShop :
    ∃ o, (sampleShop "y").outcome? 0 = some o ∧ o.failure? = none ∧
      (sampleShop "y").world.tree.read o.output = .ok (Textual.encode (sampleLeaf "east")) := by
  obtain ⟨⟨r, hr, hout⟩, -⟩ := sampleFirst_spec (show "y" ∈ _ by decide)
  have ho := (sampleShop_spec "y").1
  rw [hout] at ho
  obtain ⟨-, f, r₀, hf, hr₀, -, hown, -⟩ := (read_output (q := sampleRequest "y") (by decide)
    (by decide) ⟨sampleTree "y", .start, #[], .empty⟩ (inOrder 0 2)).2 0 _ ho rfl
  have halone : ∀ j path, (sampleRequest "y").files[j]? = some path →
      GraphFile.stem path = GraphFile.stem "a/x.cfg.toml" → j = 0 := by
    intro j path hj hstem
    match j with
    | 0 => rfl
    | 1 =>
      cases hj
      exact absurd hstem sampleRequest_spec.2.2.1
    | j + 2 => cases hj
  cases hr₀
  have hread := hown halone
  have htext : f = .text := Except.ok.inj (hf.symm.trans sampleRequest_spec.1)
  rw [htext, hr] at hread
  exact ⟨_, ho, rfl, hread⟩

/-- Two files in different directories with the same name: both workers end with success and name
the same output, which holds the graph of the second file alone. -/
theorem exists_read_output_ne :
    ∃ q w schedule o o' r r', q.files.Nodup ∧ q.config.output.directory ≠ "" ∧
      q.config.emits "graph" = true ∧
      GraphFormat.parse q.config.output.format = .ok .text ∧
      ((start q w).follow schedule).outcome? 0 = some o ∧ o.failure? = none ∧
      o.result? = some r ∧
      ((start q w).follow schedule).outcome? 1 = some o' ∧ o'.failure? = none ∧
      o'.result? = some r' ∧ o.output = o'.output ∧
      ((start q w).follow schedule).world.tree.read o.output
        = .ok (GraphFormat.text.encode r'.graph) ∧
      GraphFormat.text.encode r'.graph ≠ GraphFormat.text.encode r.graph := by
  obtain ⟨⟨r, hr, hout⟩, htree⟩ := sampleFirst_spec (show "x" ∈ _ by decide)
  obtain ⟨-, -, -, -, hread, hopen⟩ := sampleRequest_spec
  have hload : GraphFile.load (sampleFirst "x").2.tree "b/x.cfg.toml"
      = .ok (sampleLeaf "west", (leafText "west").toUTF8) := by
    rw [htree]
    exact load_leafText (by decide) (sampleRequest_spec.2.1 _ (by decide)) hread
  obtain ⟨x, hx, hxgraph⟩ := exists_findings_sampleLeaf (show "west" ∈ _ by decide)
  rw [← htree, ← hxgraph] at hopen
  obtain ⟨t, hok⟩ : ∃ t, Worker.openOutput (sampleRequest "x").config (sampleFirst "x").2.tree
      "b/x.cfg.toml" x.graph = (.ok (some (sampleOutput "west")), t) :=
    ⟨_, Prod.ext hopen rfl⟩
  obtain ⟨⟨r', hout', rfl⟩, htree'⟩ :=
    processFile_of_load (q := sampleRequest "x") rfl hload hx hok
  obtain ⟨ho, ho', hworld⟩ := sampleShop_spec "x"
  change _ = some (processFile _ (sampleFirst "x").2 "b/x.cfg.toml").1 at ho'
  rw [hout] at ho
  rw [hout'] at ho'
  have hend : (sampleShop "x").world.tree = (sampleOutput "west").write t :=
    (congrArg World.tree hworld).trans htree'
  have hgraph' : r'.graph = sampleLeaf "west" := hxgraph
  refine ⟨sampleRequest "x", _, _, _, _, r, r', by decide, by decide, by decide,
    sampleRequest_spec.1, ho, rfl, rfl, ho', rfl, rfl, rfl, ?_, ?_⟩
  · change (sampleShop "x").world.tree.read (sampleOutput "west").path = _
    rw [hend, hgraph']
    exact read_write_of_open hok
  · rw [hr, hgraph']
    exact sampleLeaf_spec.2

/-- A batch of two files with the same name in the binary form, in two directories. -/
def packedRequest : Request := { sampleRequest "x" with files := ["a/x.cfgb", "b/x.cfgb"] }

/-- The files. -/
def packedWorld (name name' : String) : World :=
  ⟨⟨.directory [("a", .directory [("x.cfgb", .file (Binary.encode (sampleLeaf name)))]),
    ("b", .directory [("x.cfgb", .file (Binary.encode (sampleLeaf name')))])], []⟩,
    .start, #[], .empty⟩

-- both workers open the output before either of them fills it
example :
    ((start packedRequest (packedWorld "northeast" "west")).follow
      (List.replicate 6 0 ++ List.replicate 6 1 ++ [0, 1])).world.tree.read "out/x.cfg.toml"
      = .ok (Tree.overlay (Textual.encode (sampleLeaf "west"))
        (Textual.encode (sampleLeaf "northeast"))) := by
  decide +kernel

end Shop

end Flowgraph.Batch
