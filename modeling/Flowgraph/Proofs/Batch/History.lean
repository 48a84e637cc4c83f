import Flowgraph.Proofs.Batch.Steps

/-!
# Workers side by side

A shop is a shared world with all workers that ever started in it, each with the request that it
works for. A history is a list of moves: a worker is hired, a worker takes a step, or somebody else
edits the files. Any number of batches, one after the other or at the same time, are a history, with
their workers interleaved step by step in any order. `process_eq_follow` is the history of a batch
that works on its files one after the other.
-/

namespace Flowgraph.Batch

open Files (Tree)

/-- A worker and the request that it works for. -/
structure Hand where
  request : Request
  worker : Worker

/-- A world and the workers in it, in the order in which they were hired. -/
structure Shop where
  world : World
  hands : List Hand

/-- What can happen in a shop. -/
inductive Move where
  /-- A worker starts on a path. -/
  | hire (q : Request) (path : String)
  /-- The worker at an index takes a step. -/
  | work (i : Nat)
  /-- The files are changed from outside. -/
  | edit (t : Tree)

/-! ## One file by itself

`Worker.Comes` says what a worker comes to in a number of steps while nobody else is at work. It is
how runs on a single file are computed, for the examples below and in later modules. -/

/-- After a number of steps from a phase, a worker has come to a tree and a phase with `Q`. -/
def Worker.Comes (q : Request) (path : String) (Q : Tree → Phase → Prop) (n : Nat) (t : Tree)
    (phase : Phase) : Prop :=
  ∀ (k : Worker) (w : World), k.path = path → w.tree = t → k.phase = phase →
    Q (steps q n (k, w)).2.tree (steps q n (k, w)).1.phase

theorem Worker.Comes.succ {q : Request} {path : String} {Q : Tree → Phase → Prop} {n : Nat}
    {t : Tree} {phase : Phase}
    (h : ∀ t' phase', Advance q path t phase t' phase' → Comes q path Q n t' phase') :
    Comes q path Q (n + 1) t phase := by
  rintro k w rfl rfl rfl
  obtain ⟨hpath, hadvance⟩ := k.step_goesOn q w
  exact h _ _ hadvance _ _ hpath rfl rfl

namespace Worker.Comes

variable {q : Request} {path : String} {Q : Tree → Phase → Prop} {n : Nat} {t t' : Tree} {g : Graph}
  {bytes : ByteArray}

theorem ended {o : Outcome} (hQ : Q t (.ended o)) : ∀ {n : Nat}, Comes q path Q n t (.ended o)
  | 0 => by
    rintro k w - rfl hphase
    rw [Worker.steps, hphase]
    exact hQ
  | n + 1 => by
    refine .succ fun _ _ h ↦ ?_
    cases h
    exact ended hQ

theorem loaded (hload : GraphFile.load t path = .ok (g, bytes))
    (h : Comes q path Q n t (.looking g bytes)) : Comes q path Q (n + 2) t .waiting := by
  refine .succ fun _ _ hstart ↦ ?_
  cases hstart
  refine .succ fun _ _ hloading ↦ ?_
  cases hloading with
  | unloaded herror => cases herror.symm.trans hload
  | loaded hok =>
    cases hok.symm.trans hload
    exact h

private theorem ran {x : Pipeline.Findings} {key? : Option ByteArray}
    (hfindings : Pipeline.findings q.config.pipeline g = .ok x)
    (h : ∀ r, r.findings = x → Comes q path Q n t (.storing r key?)) :
    Comes q path Q (n + 1) t (.running g key?) := by
  refine .succ fun _ _ hrunning ↦ ?_
  cases hrunning with
  | broken herror => cases herror.symm.trans hfindings
  | ran hok =>
    cases hok.symm.trans hfindings
    exact h _ rfl

private theorem opened {r : Pipeline.Result} {cached : Bool} {output : GraphFile.Opened}
    (hopen : Worker.openOutput q.config t path r.graph = (.ok (some output), t'))
    (hQ : Q (output.write t') (.ended ⟨path, some r, output.path, cached, none⟩)) :
    Comes q path Q (n + 2) t (.writing r cached) := by
  refine .succ fun _ _ hwriting ↦ ?_
  cases hwriting with
  | unasked hnone => cases hnone.symm.trans hopen
  | unopened herror => cases herror.symm.trans hopen
  | opened hok =>
    cases hok.symm.trans hopen
    refine .succ fun _ _ hfilling ↦ ?_
    cases hfilling
    exact ended hQ

private theorem unopened {r : Pipeline.Result} {cached : Bool} {f : Failure}
    (hopen : Worker.openOutput q.config t path r.graph = (.error f, t'))
    (hQ : Q t' (.ended ⟨path, some r, "", cached, some f⟩)) :
    Comes q path Q (n + 1) t (.writing r cached) := by
  refine .succ fun _ _ hwriting ↦ ?_
  cases hwriting with
  | unasked hnone => cases hnone.symm.trans hopen
  | opened hok => cases hok.symm.trans hopen
  | unopened herror =>
    cases herror.symm.trans hopen
    exact ended hQ

theorem processFile {w : World} {P : Outcome → Prop} (h : Comes q path
    (fun t phase ↦ t = t' ∧ ∃ o, phase = .ended o ∧ P o) stepLimit w.tree .waiting) :
    P (Batch.processFile q w path).1 ∧ (Batch.processFile q w path).2.tree = t' := by
  obtain ⟨htree, o, hend, ho⟩ := h (.fresh path) w rfl rfl rfl
  refine ⟨?_, htree⟩
  simpa only [Batch.processFile, Worker.outcome?, hend, Option.getD_some] using ho

end Worker.Comes

section Alone

variable {q : Request} {path : String} {w : World} {t' : Tree} {g : Graph} {bytes : ByteArray}
  {output : GraphFile.Opened} {x : Pipeline.Findings}

/-- Without a store, a file that is loaded and run comes to the writing of its output. -/
theorem Worker.Comes.computed {Q : Tree → Phase → Prop} {n : Nat} {t : Tree}
    (hstore : q.store? = none) (hload : GraphFile.load t path = .ok (g, bytes))
    (hfindings : Pipeline.findings q.config.pipeline g = .ok x)
    (h : ∀ r, r.findings = x → Comes q path Q n t (.writing r false)) :
    Comes q path Q (n + 5) t .waiting := by
  refine .loaded hload (.succ fun _ _ hlooking ↦ ?_)
  cases hlooking with
  | found hs => cases hs.symm.trans hstore
  | missed =>
    refine .ran hfindings fun r hr ↦ .succ fun _ _ hstoring ↦ ?_
    cases hstoring with
    | stored hs => cases hs.symm.trans hstore
    | unstored => exact h r hr

/-- Without a store, a file that is loaded and run and whose output can be opened ends with
success. -/
theorem processFile_of_load (hstore : q.store? = none)
    (hload : GraphFile.load w.tree path = .ok (g, bytes))
    (hfindings : Pipeline.findings q.config.pipeline g = .ok x)
    (hopen : Worker.openOutput q.config w.tree path x.graph = (.ok (some output), t')) :
    (∃ r, (processFile q w path).1 = ⟨path, some r, output.path, false, none⟩ ∧ r.findings = x) ∧
      (processFile q w path).2.tree = output.write t' := by
  refine Worker.Comes.processFile (P := fun o ↦ ∃ r,
    o = ⟨path, some r, output.path, false, none⟩ ∧ r.findings = x)
    (.computed hstore hload hfindings ?_)
  rintro r rfl
  exact .opened hopen ⟨rfl, _, rfl, r, rfl, rfl⟩

/-- If nothing but the opening of the output fails, the file ends with a failure and a result. -/
theorem processFile_of_unopened {f : Failure} (hstore : q.store? = none)
    (hload : GraphFile.load w.tree path = .ok (g, bytes))
    (hfindings : Pipeline.findings q.config.pipeline g = .ok x)
    (hopen : Worker.openOutput q.config w.tree path x.graph = (.error f, t')) :
    ∃ r, (processFile q w path).1 = ⟨path, some r, "", false, some f⟩ := by
  have hcomes : Worker.Comes q path (fun t phase ↦ t = t' ∧ ∃ o, phase = .ended o ∧
      ∃ r, o = ⟨path, some r, "", false, some f⟩) Worker.stepLimit w.tree .waiting := by
    refine .computed hstore hload hfindings ?_
    rintro r rfl
    exact .unopened hopen ⟨rfl, _, rfl, r, rfl⟩
  exact hcomes.processFile.1

end Alone

namespace Shop

/-- Lets the worker at an index take a step. -/
def work (s : Shop) (i : Nat) : Shop :=
  match s.hands[i]? with
  | none => s
  | some h =>
    let (k, w) := h.worker.step h.request s.world
    ⟨w, s.hands.set i { h with worker := k }⟩

def move (s : Shop) : Move → Shop
  | .hire q path => { s with hands := s.hands ++ [⟨q, .fresh path⟩] }
  | .work i => s.work i
  | .edit t => { s with world := { s.world with tree := t } }

/-- Makes moves one after the other. -/
def run (s : Shop) (moves : List Move) : Shop := moves.foldl move s

/-- A shop with a worker for each file of a request. -/
def start (q : Request) (w : World) : Shop := ⟨w, q.files.map fun path ↦ ⟨q, .fresh path⟩⟩

/-- Lets workers take steps in a given order. -/
def follow (s : Shop) (schedule : List Nat) : Shop := s.run (schedule.map .work)

/-- What the worker at an index came to, if it has ended. -/
def outcome? (s : Shop) (i : Nat) : Option Outcome := s.hands[i]?.bind (·.worker.outcome?)

variable {s : Shop} {i : Nat} {h : Hand}

theorem run_concat (s : Shop) (moves : List Move) (m : Move) :
    s.run (moves ++ [m]) = (s.run moves).move m := List.foldl_concat ..

private theorem run_hire (q : Request) (w : World) : ∀ (files : List String) (hands : List Hand),
    run ⟨w, hands⟩ (files.map (.hire q)) = ⟨w, hands ++ files.map fun path ↦ ⟨q, .fresh path⟩⟩
  | [], hands => by
    rw [List.map_nil, List.map_nil, List.append_nil]
    rfl
  | path :: files, hands => by
    have hrest := run_hire q w files (hands ++ [⟨q, .fresh path⟩])
    rw [List.append_assoc] at hrest
    exact hrest

/-- A batch is a history in which all its workers are hired first. -/
theorem follow_start (q : Request) (w : World) (schedule : List Nat) :
    (start q w).follow schedule
      = run ⟨w, []⟩ (q.files.map (.hire q) ++ schedule.map .work) := by
  have hhired : run ⟨w, []⟩ (q.files.map (.hire q)) = start q w := run_hire q w q.files []
  rw [follow, run, run, List.foldl_append, ← hhired, run]

private theorem follow_cons (s : Shop) (i : Nat) (schedule : List Nat) :
    s.follow (i :: schedule) = (s.work i).follow schedule := rfl

private theorem follow_append (s : Shop) (schedule rest : List Nat) :
    s.follow (schedule ++ rest) = (s.follow schedule).follow rest := by
  rw [follow, follow, follow, List.map_append, run, run, run, List.foldl_append]

theorem outcome?_eq_some {o : Outcome} :
    s.outcome? i = some o ↔ ∃ h, s.hands[i]? = some h ∧ h.worker.phase = .ended o := by
  rw [outcome?, Option.bind_eq_some_iff]
  refine exists_congr fun h ↦ and_congr_right fun _ ↦ ?_
  rw [Worker.outcome?]
  cases h.worker.phase <;> simp

/-! ## One step

A step of a worker changes the shared world and the hand of this worker. The other hands stay, and
an outcome that is there stays for good. -/

/-- The worker at `i` has taken a step, and the others have not. -/
structure Worked (s : Shop) (i : Nat) (h : Hand) (s' : Shop) (k : Worker) : Prop where
  hand : s.hands[i]? = some h
  hands_eq : s'.hands = s.hands.set i ⟨h.request, k⟩
  path_eq : k.path = h.worker.path
  advance : Advance h.request h.worker.path s.world.tree h.worker.phase s'.world.tree k.phase

theorem worked_of_work (hi : s.hands[i]? = some h) : ∃ k, Worked s i h (s.work i) k := by
  obtain ⟨hpath, hadvance⟩ := h.worker.step_goesOn h.request s.world
  rw [work, hi]
  exact ⟨_, hi, rfl, hpath, hadvance⟩

theorem work_of_none (hi : s.hands[i]? = none) : s.work i = s := by
  rw [work, hi]

namespace Worked

variable {s' : Shop} {k : Worker} (hw : Worked s i h s' k)

include hw

theorem getElem?_self : s'.hands[i]? = some ⟨h.request, k⟩ := by
  rw [hw.hands_eq, List.getElem?_set_self (List.getElem?_eq_some_iff.mp hw.hand).1]

theorem getElem?_of_ne {j : Nat} (hj : j ≠ i) : s'.hands[j]? = s.hands[j]? := by
  rw [hw.hands_eq, List.getElem?_set_ne (Ne.symm hj)]

theorem hand_cases {j : Nat} {hand : Hand} (hj : s'.hands[j]? = some hand) :
    s.hands[j]? = some hand ∨ j = i ∧ hand = ⟨h.request, k⟩ := by
  by_cases hji : j = i
  · rw [hji, hw.getElem?_self, Option.some.injEq] at hj
    exact Or.inr ⟨hji, hj.symm⟩
  · rw [hw.getElem?_of_ne hji] at hj
    exact Or.inl hj

/-- A worker that has ended stays as it is. -/
theorem outcome?_mono {j : Nat} {o : Outcome} (ho : s.outcome? j = some o) :
    s'.outcome? j = some o := by
  obtain ⟨hj, hhand, hend⟩ := outcome?_eq_some.mp ho
  rw [outcome?_eq_some]
  by_cases hji : j = i
  · rw [hji] at hhand ⊢
    cases hhand.symm.trans hw.hand
    refine ⟨_, hw.getElem?_self, ?_⟩
    have hadvance := hw.advance
    rw [hend] at hadvance
    generalize k.phase = phase at hadvance
    generalize s'.world.tree = t' at hadvance
    cases hadvance
    rfl
  · exact ⟨hj, by rw [hw.getElem?_of_ne hji, hhand], hend⟩

end Worked

/-! ## One file after the other

With one job a batch gives every worker all of its steps before the next one starts. In a history
this is a list of moves like any other, so that all that is said of histories holds of it. -/

/-- Each of the workers at `n` indices from `k` on is given all its steps before the next one. -/
def inOrder (k n : Nat) : List Nat :=
  (List.range' k n).flatMap (List.replicate Worker.stepLimit)

private theorem follow_replicate {q : Request} {done left : List Hand} :
    ∀ {n : Nat} {k : Worker} {w : World},
    follow ⟨w, done ++ ⟨q, k⟩ :: left⟩ (List.replicate n done.length)
      = ⟨(Worker.steps q n (k, w)).2, done ++ ⟨q, (Worker.steps q n (k, w)).1⟩ :: left⟩
  | 0, k, w => rfl
  | n + 1, k, w => by
    have hget : (done ++ ⟨q, k⟩ :: left)[done.length]? = some ⟨q, k⟩ := by simp
    have hwork : work ⟨w, done ++ ⟨q, k⟩ :: left⟩ done.length
        = ⟨(k.step q w).2, done ++ ⟨q, (k.step q w).1⟩ :: left⟩ := by
      simp only [work, hget, List.set_append_right _ _ le_rfl, Nat.sub_self, List.set_cons_zero]
    rw [List.replicate_succ, follow_cons, hwork, follow_replicate]
    rfl

private theorem stepsLeft_steps (q : Request) : ∀ (n : Nat) (k : Worker) (w : World),
    (Worker.steps q n (k, w)).1.phase.stepsLeft ≤ k.phase.stepsLeft - n
  | 0, _, _ => le_rfl
  | n + 1, k, w => by
    have hstep := (k.step_goesOn q w).2.stepsLeft_le
    have hrest : (Worker.steps q n (k.step q w)).1.phase.stepsLeft
        ≤ (k.step q w).1.phase.stepsLeft - n := stepsLeft_steps q n _ _
    rw [Worker.steps]
    omega

private theorem processFiles_eq_follow (q : Request) : ∀ (files : List String) (w : World)
    (done : List Hand), ∃ ended : List Hand,
      follow ⟨w, done ++ files.map fun path ↦ ⟨q, .fresh path⟩⟩ (inOrder done.length files.length)
          = ⟨(processFiles q files w).2, done ++ ended⟩ ∧
        ended.map (·.worker.outcome?) = (processFiles q files w).1.map some
  | [], w, done => ⟨[], rfl, rfl⟩
  | path :: files, w, done => by
    let k := (Worker.steps q Worker.stepLimit (.fresh path, w)).1
    let w' := (Worker.steps q Worker.stepLimit (.fresh path, w)).2
    have hend : ∃ o, k.phase = .ended o := by
      refine Phase.exists_of_stepsLeft (Nat.le_zero.mp ?_)
      exact stepsLeft_steps q Worker.stepLimit (.fresh path) w
    obtain ⟨o, ho⟩ := hend
    obtain ⟨ended, hfollow, houtcomes⟩ := processFiles_eq_follow q files w' (done ++ [⟨q, k⟩])
    refine ⟨⟨q, k⟩ :: ended, ?_, ?_⟩
    · rw [List.length_append, List.length_singleton, List.append_assoc,
        List.append_assoc] at hfollow
      rw [List.length_cons, inOrder, List.range'_succ, List.flatMap_cons, follow_append,
        List.map_cons, follow_replicate]
      exact hfollow
    · have hk : k.outcome? = some o := by rw [Worker.outcome?, ho]
      have hfile : (processFile q w path).1 = o := by
        change k.outcome?.getD _ = o
        rw [hk]
        rfl
      rw [List.map_cons, houtcomes, processFiles, hk, ← hfile]
      rfl

/-- Working on all files of a request one after the other is a history of its workers. -/
theorem follow_inOrder (q : Request) (w : World) :
    ((start q w).follow (inOrder 0 q.files.length)).world = (processFiles q q.files w).2 ∧
      ∀ i, ((start q w).follow (inOrder 0 q.files.length)).outcome? i
        = (processFiles q q.files w).1[i]? := by
  obtain ⟨ended, hfollow, houtcomes⟩ := processFiles_eq_follow q q.files w []
  rw [List.nil_append, List.nil_append, List.length_nil] at hfollow
  rw [start, hfollow]
  refine ⟨rfl, fun i ↦ ?_⟩
  have hi := congrArg (·[i]?) houtcomes
  simp only [List.getElem?_map] at hi
  rw [outcome?]
  change ended[i]?.bind _ = _
  cases hhand : ended[i]? with
  | none =>
    rw [hhand] at hi
    cases hout : (processFiles q q.files w).1[i]? with
    | none => rfl
    | some o => rw [hout] at hi; cases hi
  | some hand =>
    rw [hhand] at hi
    cases hout : (processFiles q q.files w).1[i]? with
    | none => rw [hout] at hi; cases hi
    | some o => rw [hout] at hi; exact Option.some.inj hi

theorem follow_inOrder_pair {q : Request} {path path' : String} (hfiles : q.files = [path, path'])
    (w : World) :
    ((start q w).follow (inOrder 0 2)).outcome? 0 = some (processFile q w path).1 ∧
      ((start q w).follow (inOrder 0 2)).outcome? 1
        = some (processFile q (processFile q w path).2 path').1 ∧
      ((start q w).follow (inOrder 0 2)).world
        = (processFile q (processFile q w path).2 path').2 := by
  have hcount : q.files.length = 2 := by
    rw [hfiles]
    rfl
  have hprocess : processFiles q q.files w
      = ([(processFile q w path).1, (processFile q (processFile q w path).2 path').1],
        (processFile q (processFile q w path).2 path').2) := by
    rw [hfiles]
    rfl
  obtain ⟨hworld, houtcomes⟩ := follow_inOrder q w
  rw [hcount, hprocess] at hworld houtcomes
  exact ⟨houtcomes 0, houtcomes 1, hworld⟩

/-- A batch that is not called off is a history of its workers, from the world in which every file
is reported as queued. -/
theorem process_eq_follow {q : Request} (hc : q.canceled = false) (w : World) :
    let queued := q.files.foldl (fun w path ↦ w.report ⟨path, .load, .queued, none⟩) w
    ((start q queued).follow (inOrder 0 q.files.length)).world = (process q w).2 ∧
      ∀ i, ((start q queued).follow (inOrder 0 q.files.length)).outcome? i
        = (process q w).1[i]? := by
  intro queued
  have hprocess : process q w = processFiles q q.files queued := by
    rw [process, hc]
    rfl
  rw [hprocess]
  exact follow_inOrder q queued

end Shop

end Flowgraph.Batch
