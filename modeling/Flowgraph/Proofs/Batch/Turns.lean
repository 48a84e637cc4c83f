import Flowgraph.Proofs.Batch.History

/-!
# Workers that can be called off

Turns are the moves in a shop where a batch can be called off at any time: with each step of a
worker goes what it finds when it looks, before a stage of the pipeline, whether to go on. A history
of moves is one of turns in which nobody is called off (`run_eq_takes`).

A worker never gets farther from its end, and it ends after seven steps of its own whatever the
others do in between (`Shop.exists_ended`).

The *ledger* of a history lists what is added to something that all workers share, such as the
reports or the trace, each entry with the worker that added it. What belongs to one worker is its
*share*. An invariant of a shop and its ledger that every turn keeps holds all along every history
(`Shop.kept`). If it is about a worker and its share alone, it is enough that every step of the
worker keeps it, in whatever world the step is taken (`Shop.along`).
-/

namespace Flowgraph.Batch

open Files (Tree)
open Pipeline (Stage Event)

/-! ## What a step can do

`Deed` has one case for each thing that a step can do, with the change of the files, the reports and
the trace in one place. The story of the reports and the trails of the spans are both read off it,
so that the cases of a step are looked at here and nowhere else. -/

/-- The world after some change of the files, with or without a remark on the cache. -/
inductive Remarked (q : Request) (k : Worker) (w : World) : World → Prop
  | silent (t : Tree) : Remarked q k w { w with tree := t }
  | said (t : Tree) (detail : String) :
    Remarked q k w (World.remark { w with tree := t } q.level k.span detail)

/-- Is it the writing of the output that failed? -/
def Failure.isOfOutput : Failure → Bool
  | .format _ | .outputDirectory _ | .save _ => true
  | _ => false

/-- How a worker and the world can come out of a step, by the phase of the worker. -/
inductive Deed (q : Request) (calledOff : Stage → Bool) (k : Worker) (w : World) :
    Worker × World → Prop
  | started (phase : k.phase = .waiting) : Deed q calledOff k w (k.start q w)
  | unloaded (phase : k.phase = .loading) (e : GraphFile.Error) :
    Deed q calledOff k w (k.fail (w.time .load) (.load e) none false)
  | loaded (phase : k.phase = .loading) (g : Graph) (bytes : ByteArray) :
    Deed q calledOff k w ({ k with phase := .looking g bytes }, w.time .load)
  | found {g : Graph} {bytes : ByteArray} (phase : k.phase = .looking g bytes)
    (r : Pipeline.Result) :
    Deed q calledOff k w ({ (k.report w .load .cached none).1 with phase := .writing r true },
      (k.report w .load .cached none).2)
  | missed {g : Graph} {bytes : ByteArray} {w' : World} (phase : k.phase = .looking g bytes)
    (remarked : Remarked q k w w') (key? : Option ByteArray) :
    Deed q calledOff k w ({ (k.report w' .load .done none).1 with phase := .running g key? },
      (k.report w' .load .done none).2)
  | ran {g : Graph} {key? : Option ByteArray} (phase : k.phase = .running g key?) :
    Deed q calledOff k w (k.runUnless calledOff q w g key?)
  | stored {r : Pipeline.Result} {key? : Option ByteArray} {w' : World}
    (phase : k.phase = .storing r key?) (remarked : Remarked q k w w') :
    Deed q calledOff k w ({ k with stage := .write, phase := .writing r false }, w')
  | opened {r : Pipeline.Result} {cached : Bool} (phase : k.phase = .writing r cached) (t : Tree)
    (output : GraphFile.Opened) :
    Deed q calledOff k w ({ k with phase := .filling r cached output }, { w with tree := t })
  | unopened {r : Pipeline.Result} {cached : Bool} {f : Failure}
    (phase : k.phase = .writing r cached) (t : Tree) (kind : f.isOfOutput = true) :
    Deed q calledOff k w (k.fail { w with tree := t } f (some r) cached)
  | written {r : Pipeline.Result} {cached : Bool}
    (phase : k.phase = .writing r cached ∨ ∃ output, k.phase = .filling r cached output) (t : Tree)
    (output : String) : Deed q calledOff k w (k.succeed { w with tree := t } r output cached)
  | idle {o : Outcome} (phase : k.phase = .ended o) : Deed q calledOff k w (k, w)

namespace Worker

variable {q : Request} {calledOff : Stage → Bool} {k : Worker} {w : World}

private theorem isOfOutput_of_openOutput {c : Config} {t t' : Tree} {path : String} {g : Graph}
    {f : Failure} (h : openOutput c t path g = (.error f, t')) : f.isOfOutput = true := by
  unfold openOutput at h
  split at h
  · cases h
  split at h
  · cases h
    rfl
  split at h
  · cases h
    rfl
  split at h <;> cases h
  rfl

private theorem deed_of_load (phase : k.phase = .loading) : Deed q calledOff k w (k.load w) := by
  unfold load
  dsimp only
  split
  · exact .unloaded phase _
  · exact .loaded phase _ _

private theorem deed_of_look {g : Graph} {bytes : ByteArray} (phase : k.phase = .looking g bytes) :
    Deed q calledOff k w (k.look q w g bytes) := by
  unfold look
  split
  · split
    · dsimp only
      split
      · exact .found phase _
      · exact .missed phase (.silent w.tree) _
      · exact .missed phase (.said w.tree _) _
    · exact .missed phase (.silent w.tree) _
  · exact .missed phase (.silent w.tree) _

private theorem deed_of_store {r : Pipeline.Result} {key? : Option ByteArray}
    (phase : k.phase = .storing r key?) : Deed q calledOff k w (k.store q w r key?) := by
  unfold store
  dsimp only
  split
  · split
    · exact .stored phase (.silent _)
    · exact .stored phase (.said _ _)
  · exact .stored phase (.silent w.tree)

private theorem deed_of_write {r : Pipeline.Result} {cached : Bool}
    (phase : k.phase = .writing r cached) : Deed q calledOff k w (k.write q w r cached) := by
  unfold write
  split
  · exact .written (.inl phase) _ _
  · exact .opened phase _ _
  · rename_i hopen
    exact .unopened phase _ (isOfOutput_of_openOutput hopen)

/-- Every step of a worker is a deed. -/
theorem deed_of_step (q : Request) (calledOff : Stage → Bool) (k : Worker) (w : World) :
    Deed q calledOff k w (k.stepUnless calledOff q w) := by
  unfold stepUnless
  split
  · exact .started ‹_›
  · exact deed_of_load ‹_›
  · exact deed_of_look ‹_›
  · exact .ran ‹_›
  · exact deed_of_store ‹_›
  · exact deed_of_write ‹_›
  · exact .written (.inr ⟨_, ‹_›⟩) _ _
  · exact .idle ‹_›

/-! ## Ending -/

theorem fail_end (k : Worker) (w : World) (f : Failure) (r? : Option Pipeline.Result)
    (cached : Bool) : (k.fail w f r? cached).1.phase = .ended ⟨k.path, r?, "", cached, some f⟩ :=
  (k.fail_spec w f r? cached).2.1

theorem runUnless_phase (calledOff : Stage → Bool) (q : Request) (k : Worker) (w : World)
    (g : Graph) (key? : Option ByteArray) :
    (∃ r, (k.runUnless calledOff q w g key?).1.phase = .storing r key?) ∨
      ∃ f, (k.runUnless calledOff q w g key?).1.phase
        = .ended ⟨k.path, none, "", false, some (.pipeline k.path f)⟩ := by
  rw [runUnless]
  rcases Pipeline.runUnless _ _ w.recorder (some g) with ⟨f | r, journal⟩
  · exact Or.inr ⟨f, fail_end _ _ _ _ _⟩
  · exact Or.inl ⟨r, rfl⟩

end Worker

private theorem Deed.stepsLeft_le {q : Request} {calledOff : Stage → Bool} {k : Worker} {w : World}
    {x : Worker × World} (h : Deed q calledOff k w x) :
    x.1.phase.stepsLeft ≤ k.phase.stepsLeft - 1 := by
  cases h with
  | started phase => rw [phase]; exact le_rfl
  | unloaded phase => rw [Worker.fail_end]; exact Nat.zero_le _
  | loaded phase => rw [phase]; exact le_rfl
  | found phase => rw [phase]; exact (by decide : (2 : Nat) ≤ 4)
  | missed phase => rw [phase]; exact le_rfl
  | @ran g key? phase =>
    rw [phase]
    rcases k.runUnless_phase calledOff q w g key? with ⟨r, hr⟩ | ⟨f, hf⟩
    · rw [hr]; exact le_rfl
    · rw [hf]; exact Nat.zero_le _
  | stored phase | opened phase => rw [phase]; exact le_rfl
  | unopened phase => rw [Worker.fail_end]; exact Nat.zero_le _
  | written phase => exact Nat.zero_le _
  | idle phase => rw [phase]; exact le_rfl

private theorem Deed.path_eq {q : Request} {calledOff : Stage → Bool} {k : Worker} {w : World}
    {x : Worker × World} (h : Deed q calledOff k w x) : x.1.path = k.path := by
  cases h with
  | unloaded | unopened => exact (k.fail_spec ..).1
  | @ran g key? =>
    rw [Worker.runUnless]
    rcases Pipeline.runUnless _ _ w.recorder (some g) with ⟨f | r, journal⟩
    · exact (Worker.fail_spec ..).1
    · rfl
  | _ => rfl

/-! ## Turns

A turn moves one worker, or hires one, or is an edit by somebody else. All that later proofs have to
know of a turn is whose it is, and that it leaves the other hands alone. -/

/-- What can happen in a shop where a batch can be called off. -/
inductive Turn where
  /-- A worker starts on a path. -/
  | hire (q : Request) (path : String)
  /-- The worker at an index takes a step. -/
  | work (i : Nat) (calledOff : Stage → Bool)
  /-- The files are changed from outside. -/
  | edit (t : Tree)

def Move.turn : Move → Turn
  | .hire q path => .hire q path
  | .work i => .work i fun _ ↦ false
  | .edit t => .edit t

/-- Is it a step of the worker at `i`? -/
def Turn.isBy (i : Nat) : Turn → Bool
  | .work j _ => j = i
  | .hire .. | .edit _ => false

namespace Shop

def take (s : Shop) : Turn → Shop
  | .hire q path => { s with hands := s.hands ++ [⟨q, .fresh path⟩] }
  | .work i calledOff =>
    match s.hands[i]? with
    | none => s
    | some h =>
      let (k, w) := h.worker.stepUnless calledOff h.request s.world
      ⟨w, s.hands.set i { h with worker := k }⟩
  | .edit t => { s with world := { s.world with tree := t } }

def takes (s : Shop) (turns : List Turn) : Shop := turns.foldl take s

variable {s : Shop} {i : Nat} {h : Hand} {calledOff : Stage → Bool}

private theorem move_eq_take (s : Shop) (m : Move) : s.move m = s.take m.turn := by cases m <;> rfl

/-- A history of moves is one of turns in which nobody is called off. -/
theorem run_eq_takes (s : Shop) (moves : List Move) :
    s.run moves = s.takes (moves.map Move.turn) := by
  rw [run, takes, List.foldl_map]
  exact congrArg (moves.foldl · s) (funext₂ move_eq_take)

private theorem takes_concat (s : Shop) (turns : List Turn) (t : Turn) :
    s.takes (turns ++ [t]) = (s.takes turns).take t := List.foldl_concat ..

theorem take_work (hi : s.hands[i]? = some h) :
    s.take (.work i calledOff) = ⟨(h.worker.stepUnless calledOff h.request s.world).2,
      s.hands.set i ⟨h.request, (h.worker.stepUnless calledOff h.request s.world).1⟩⟩ := by
  rw [take, hi]

theorem take_of_none (hi : s.hands[i]? = none) : s.take (.work i calledOff) = s := by
  rw [take, hi]

/-- What the hands can be after a step of the worker at `i`. -/
theorem hand_of_take_work (hi : s.hands[i]? = some h) {j : Nat} {hand : Hand}
    (hj : (s.take (.work i calledOff)).hands[j]? = some hand) :
    j = i ∧ hand = ⟨h.request, (h.worker.stepUnless calledOff h.request s.world).1⟩ ∨
      j ≠ i ∧ s.hands[j]? = some hand := by
  rw [take_work hi] at hj
  by_cases hji : j = i
  · rw [hji, List.getElem?_set_self (List.getElem?_eq_some_iff.mp hi).1, Option.some.injEq] at hj
    exact Or.inl ⟨hji, hj.symm⟩
  · rw [List.getElem?_set_ne (Ne.symm hji)] at hj
    exact Or.inr ⟨hji, hj⟩

theorem hand_of_take_hire {q : Request} {path : String} {hand : Hand}
    (hi : (s.take (.hire q path)).hands[i]? = some hand) :
    s.hands[i]? = some hand ∨ i = s.hands.length ∧ hand = ⟨q, .fresh path⟩ := by
  rw [take, List.getElem?_append] at hi
  split at hi
  · exact Or.inl hi
  · rename_i hlen
    rw [List.getElem?_singleton] at hi
    split at hi
    · exact Or.inr ⟨by omega, (Option.some.inj hi).symm⟩
    · cases hi

/-! ## Progress -/

/-- A turn leaves a worker its path and its request, and a step of its own brings it closer to its
end. -/
theorem stepsLeft_take (hi : s.hands[i]? = some h) (t : Turn) :
    ∃ h', (s.take t).hands[i]? = some h' ∧ h'.request = h.request ∧
      h'.worker.path = h.worker.path ∧
      h'.worker.phase.stepsLeft ≤ h.worker.phase.stepsLeft - if t.isBy i then 1 else 0 := by
  cases t with
  | hire q path =>
    exact ⟨h, List.getElem?_append_left (List.getElem?_eq_some_iff.mp hi).1 ▸ hi, rfl, rfl, le_rfl⟩
  | edit t => exact ⟨h, hi, rfl, rfl, le_rfl⟩
  | work j calledOff =>
    cases hj : s.hands[j]? with
    | none =>
      have hne : j ≠ i := by
        rintro rfl
        cases hj.symm.trans hi
      rw [take_of_none hj]
      exact ⟨h, hi, rfl, rfl, by simp [Turn.isBy, hne]⟩
    | some hand =>
      rw [take_work hj]
      by_cases hji : j = i
      · subst hji
        cases hj.symm.trans hi
        have hdeed := h.worker.deed_of_step h.request calledOff s.world
        refine ⟨_, List.getElem?_set_self (List.getElem?_eq_some_iff.mp hi).1, rfl,
          hdeed.path_eq, ?_⟩
        simpa [Turn.isBy] using hdeed.stepsLeft_le
      · exact ⟨h, (List.getElem?_set_ne hji).trans hi, rfl, rfl, by simp [Turn.isBy, hji]⟩

theorem stepsLeft_takes : ∀ (turns : List Turn) {s : Shop} {h : Hand}, s.hands[i]? = some h →
    ∃ h', (s.takes turns).hands[i]? = some h' ∧ h'.request = h.request ∧
      h'.worker.path = h.worker.path ∧
      h'.worker.phase.stepsLeft ≤ h.worker.phase.stepsLeft - turns.countP (·.isBy i)
  | [], s, h, hi => ⟨h, hi, rfl, rfl, le_rfl⟩
  | t :: turns, s, h, hi => by
    obtain ⟨h₁, hi₁, hrequest₁, hpath₁, hleft₁⟩ := stepsLeft_take hi t
    obtain ⟨h₂, hi₂, hrequest₂, hpath₂, hleft₂⟩ := stepsLeft_takes turns hi₁
    refine ⟨h₂, hi₂, hrequest₂.trans hrequest₁, hpath₂.trans hpath₁, ?_⟩
    rw [List.countP_cons]
    omega

/-- A worker that is given seven turns has ended, whatever the others do in between. -/
theorem exists_ended (hi : s.hands[i]? = some h) {turns : List Turn}
    (hcount : Worker.stepLimit ≤ turns.countP (·.isBy i)) :
    ∃ h' o, (s.takes turns).hands[i]? = some h' ∧ h'.worker.phase = .ended o := by
  obtain ⟨h', hi', -, -, hleft⟩ := stepsLeft_takes turns hi
  have hlimit : h.worker.phase.stepsLeft ≤ Worker.stepLimit := by
    cases h.worker.phase <;> simp [Phase.stepsLeft, Worker.stepLimit]
  have hzero : h'.worker.phase.stepsLeft = 0 := by omega
  obtain ⟨o, ho⟩ := Phase.exists_of_stepsLeft hzero
  exact ⟨h', o, hi', ho⟩

/-- A worker of a batch that is given seven steps ends, in any order of the steps of all of them. -/
theorem exists_outcome (q : Request) (w : World) {schedule : List Nat} {path : String}
    (hpath : q.files[i]? = some path) (hcount : Worker.stepLimit ≤ schedule.count i) :
    ∃ o, ((start q w).follow schedule).outcome? i = some o := by
  have hi : (start q w).hands[i]? = some ⟨q, .fresh path⟩ := by
    rw [start, List.getElem?_map, hpath]
    rfl
  have hturns : Worker.stepLimit
      ≤ ((schedule.map Move.work).map Move.turn).countP (·.isBy i) := by
    rw [List.map_map, List.countP_map]
    exact hcount
  obtain ⟨h', o, hi', hend⟩ := exists_ended hi hturns
  rw [← run_eq_takes] at hi'
  exact ⟨o, outcome?_eq_some.mpr ⟨h', hi', hend⟩⟩

/-- The turns of two workers that take every step right after each other. -/
def sideBySide : List Turn :=
  (List.replicate Worker.stepLimit [.work 0 fun _ ↦ false, .work 1 fun _ ↦ false]).flatten

end Shop

/-! ## Ledgers

What is added to the shared world in a turn is added by the worker whose turn it is. So the ledger
of a history can be written down from outside, without anything in the world that says who did what,
and the shares of the workers are its parts. -/

section Ledger

variable {β : Type}

/-- The entries of one worker. -/
def shareOf (i : Nat) (l : List (Nat × β)) : List β := (l.filter (·.1 = i)).map Prod.snd

@[simp] theorem shareOf_append (i : Nat) (l l' : List (Nat × β)) :
    shareOf i (l ++ l') = shareOf i l ++ shareOf i l' := by
  rw [shareOf, List.filter_append, List.map_append, shareOf, shareOf]

@[simp] theorem shareOf_map_self (i : Nat) (l : List β) : shareOf i (l.map (i, ·)) = l := by
  simp [shareOf, List.filter_map, Function.comp_def]

theorem shareOf_map_of_ne {i j : Nat} (hij : j ≠ i) (l : List β) :
    shareOf i (l.map (j, ·)) = [] := by
  simp [shareOf, List.filter_map, Function.comp_def, hij]

namespace Shop

/-- What a turn adds to a view of the world. -/
def entries (view : World → List β) (s : Shop) (t : Turn) : List (Nat × β) :=
  match t with
  | .work i _ => ((view (s.take t).world).drop (view s.world).length).map (i, ·)
  | .hire .. | .edit _ => []

/-- What turns add to a view of the world. -/
def ledger (view : World → List β) : Shop → List Turn → List (Nat × β)
  | _, [] => []
  | s, t :: turns => s.entries view t ++ (s.take t).ledger view turns

variable {view : World → List β} {s : Shop} {i : Nat} {h : Hand}

theorem ledger_concat : ∀ (s : Shop) (turns : List Turn) (t : Turn),
    s.ledger view (turns ++ [t]) = s.ledger view turns ++ (s.takes turns).entries view t
  | s, [], t => List.append_nil _
  | s, u :: turns, t => by
    rw [List.cons_append, ledger, ledger_concat, ledger, List.append_assoc]
    rfl

theorem entries_of_none {calledOff : Stage → Bool} (hi : s.hands[i]? = none) :
    s.entries view (.work i calledOff) = [] := by
  rw [entries, take_of_none hi, List.drop_length, List.map_nil]

/-- What a step adds is the share of its worker. -/
theorem entries_work {calledOff : Stage → Bool} {es : List β} (hi : s.hands[i]? = some h)
    (hes : view (h.worker.stepUnless calledOff h.request s.world).2 = view s.world ++ es) :
    s.entries view (.work i calledOff) = es.map (i, ·) := by
  rw [entries, take_work hi, hes, List.drop_left]

theorem shareOf_work_self {calledOff : Stage → Bool} {es : List β} (hi : s.hands[i]? = some h)
    (hes : view (h.worker.stepUnless calledOff h.request s.world).2 = view s.world ++ es)
    (l : List (Nat × β)) :
    shareOf i (l ++ s.entries view (.work i calledOff)) = shareOf i l ++ es := by
  rw [shareOf_append, entries_work hi hes, shareOf_map_self]

theorem shareOf_work_of_ne {calledOff : Stage → Bool} {j : Nat} (hj : j ≠ i) (l : List (Nat × β)) :
    shareOf j (l ++ s.entries view (.work i calledOff)) = shareOf j l := by
  rw [shareOf_append, entries, shareOf_map_of_ne hj.symm, List.append_nil]

/-- Only workers that are there at the start add entries, if nobody is hired. -/
theorem lt_of_mem_ledger : ∀ {turns : List Turn} {s : Shop} {x : Nat × β},
    (∀ t ∈ turns, ∃ i calledOff, t = .work i calledOff) → x ∈ s.ledger view turns →
      x.1 < s.hands.length
  | [], _, _, _, hx => absurd hx List.not_mem_nil
  | t :: turns, s, x, hturns, hx => by
    obtain ⟨⟨i, calledOff, rfl⟩, hrest⟩ := List.forall_mem_cons.mp hturns
    cases hi : s.hands[i]? with
    | none =>
      rw [ledger, entries_of_none hi, List.nil_append, take_of_none hi] at hx
      exact lt_of_mem_ledger hrest hx
    | some h =>
      rw [ledger, entries, List.mem_append, List.mem_map] at hx
      rcases hx with ⟨e, -, rfl⟩ | hx
      · exact (List.getElem?_eq_some_iff.mp hi).1
      · have hlt := lt_of_mem_ledger hrest hx
        rwa [take_work hi, List.length_set] at hlt

/-- What every turn keeps holds all along. -/
theorem kept {Inv : Shop → List (Nat × β) → Prop} (hstart : Inv s [])
    (hturn : ∀ s l t, Inv s l → Inv (s.take t) (l ++ s.entries view t)) (turns : List Turn) :
    Inv (s.takes turns) (s.ledger view turns) := by
  induction turns using List.reverseRecOn with
  | nil => exact hstart
  | append_singleton turns t ih =>
    rw [takes_concat, ledger_concat]
    exact hturn _ _ t ih

variable (view) in
/-- What every step of a worker keeps of the worker and its share holds all along. -/
theorem along {P : Hand → List β → Prop} (hfresh : ∀ q path, P ⟨q, .fresh path⟩ [])
    (hstep : ∀ (h : Hand) (calledOff : Stage → Bool) (w : World) (l : List β), P h l →
      ∃ es, view (h.worker.stepUnless calledOff h.request w).2 = view w ++ es ∧
        P ⟨h.request, (h.worker.stepUnless calledOff h.request w).1⟩ (l ++ es))
    (hs : ∀ h ∈ s.hands, P h []) (turns : List Turn) (hi : (s.takes turns).hands[i]? = some h) :
    P h (shareOf i (s.ledger view turns)) := by
  -- a number that nobody has yet has no share, so that a worker that is hired starts with none
  let Inv (s : Shop) (l : List (Nat × β)) : Prop :=
    (∀ i h, s.hands[i]? = some h → P h (shareOf i l)) ∧
      ∀ i, s.hands[i]? = none → shareOf i l = []
  suffices hinv : Inv (s.takes turns) (s.ledger view turns) from hinv.1 i h hi
  refine kept ⟨fun i h hi ↦ hs h (List.mem_of_getElem? hi), fun _ _ ↦ rfl⟩ ?_ turns
  rintro s l t ⟨hhands, hnone⟩
  cases t with
  | hire q path =>
    rw [entries, List.append_nil]
    refine ⟨fun j hand hj ↦ ?_, fun j hj ↦ hnone j ?_⟩
    · rcases hand_of_take_hire hj with hj | ⟨rfl, rfl⟩
      · exact hhands j hand hj
      · rw [hnone _ (List.getElem?_eq_none le_rfl)]
        exact hfresh q path
    · rw [take, List.getElem?_eq_none_iff, List.length_append] at hj
      exact List.getElem?_eq_none (Nat.le_of_add_right_le hj)
  | edit t =>
    rw [entries, List.append_nil]
    exact ⟨hhands, hnone⟩
  | work j calledOff =>
    cases hj : s.hands[j]? with
    | none =>
      rw [take_of_none hj, entries_of_none hj, List.append_nil]
      exact ⟨hhands, hnone⟩
    | some hand =>
      obtain ⟨es, hes, hstepped⟩ := hstep hand calledOff s.world _ (hhands j hand hj)
      refine ⟨fun n hand' hn ↦ ?_, fun n hn ↦ ?_⟩
      · rcases hand_of_take_work hj hn with ⟨rfl, rfl⟩ | ⟨hne, hn⟩
        · rw [shareOf_work_self hj hes]
          exact hstepped
        · rw [shareOf_work_of_ne hne]
          exact hhands n hand' hn
      · have hne : n ≠ j := by
          rintro rfl
          rw [take_work hj, List.getElem?_eq_none_iff, List.length_set] at hn
          exact absurd (List.getElem?_eq_some_iff.mp hj).1 (by omega)
        rw [shareOf_work_of_ne hne]
        refine hnone n ?_
        rwa [take_work hj, List.getElem?_set_ne hne.symm] at hn

end Shop

end Ledger

end Flowgraph.Batch
