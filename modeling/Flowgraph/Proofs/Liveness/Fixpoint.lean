import Flowgraph.Liveness.Analysis
import Flowgraph.Proofs.IndexTables
import Flowgraph.Proofs.Order.Fitness

/-!
# The fixpoint of the liveness analysis

The analysis walks the blocks from the last to the first and starts again from a later block when
something there has changed under it. What it has found out about a block is `Stable` if walking
the block again would change nothing. The blocks that are not pending are stable at any time, so
that at the end, when nothing is pending, all are.

## Why a block stays stable

A stable block can be upset in two ways. One of its operations can become live after it was
walked; then the walk is rewound to the block. Or the control state of a successor can change. The
successors that are walked later than the block are the targets of backedges, which are loop
headers, and a header whose state changes rewinds the walk to its latest predecessor. This is
where reverse postorder is needed.

## Why the walk ends

A rewind marks an operation or settles a header for good. Both can happen only so often, and
between two rewinds the number of pending blocks falls with each step.
-/

namespace Flowgraph

namespace Liveness

variable {g : Graph} {s s' : Liveness} {b : BlockIndex}

/-! ## Tables

The tables of the analysis have one place for each operation and for each block, and marking an
operation as live is the only change of the first one. -/

/-- The tables have an entry for each operation and each block. -/
structure Sized (g : Graph) (s : Liveness) : Prop where
  live : s.live.size = g.opCount
  control : s.control.size = g.blockCount
  tidy : s.rewrites.Tidy
  capacity : s.rewrites.capacity = g.opCount

theorem Sized.withPending (h : Sized g s) (p : Nat) : Sized g { s with pending := p } :=
  ⟨h.live, h.control, h.tidy, h.capacity⟩

theorem isLive_eq_true {i : OpIndex} : s.isLive i = true ↔ s.live[i]? = some true := by
  rw [isLive]
  cases s.live[i]? <;> simp

theorem isLive_lt {i : OpIndex} (h : s.isLive i = true) : i < s.live.size :=
  (Array.getElem?_eq_some_iff.mp (isLive_eq_true.mp h)).1

/-- Marking an operation live. -/
theorem isLive_set {i : OpIndex} (hi : i < s.live.size) (j : OpIndex) :
    isLive { s with live := s.live.setIfInBounds i true } j = true ↔ j = i ∨ s.isLive j = true := by
  rw [isLive_eq_true, isLive_eq_true]
  by_cases hj : j = i
  · subst hj
    simp [Array.getElem?_setIfInBounds_self_of_lt hi]
  · rw [Array.getElem?_setIfInBounds_ne (Ne.symm hj)]
    simp [hj]

/-- The number of operations that are not live. -/
def deadCount (s : Liveness) : Nat :=
  ((Finset.range s.live.size).filter fun i ↦ s.isLive i = false).card

theorem deadCount_le (hsize : s'.live.size = s.live.size)
    (hmono : ∀ i, s.isLive i = true → s'.isLive i = true) : s'.deadCount ≤ s.deadCount := by
  refine Finset.card_le_card fun i hi ↦ ?_
  rw [Finset.mem_filter] at hi ⊢
  refine ⟨hsize ▸ hi.1, ?_⟩
  rw [← Bool.not_eq_true]
  exact fun hlive ↦ by simp [hmono i hlive] at hi

private theorem deadCount_lt (hsize : s'.live.size = s.live.size)
    (hmono : ∀ i, s.isLive i = true → s'.isLive i = true) {i : OpIndex}
    (hold : s.isLive i = false) (hnew : s'.isLive i = true) : s'.deadCount < s.deadCount := by
  refine Finset.card_lt_card ((Finset.ssubset_iff_of_subset fun j hj ↦ ?_).mpr ⟨i, ?_, ?_⟩)
  · rw [Finset.mem_filter] at hj ⊢
    refine ⟨hsize ▸ hj.1, ?_⟩
    rw [← Bool.not_eq_true]
    exact fun hlive ↦ by simp [hmono j hlive] at hj
  · exact Finset.mem_filter.mpr ⟨Finset.mem_range.mpr (hsize ▸ isLive_lt hnew), hold⟩
  · rw [Finset.mem_filter, hnew]
    simp

/-! ## Marking inputs

Marking the inputs of an operation makes them live and rewinds the walk to the latest block of one
that was dead and had been passed. Nothing else changes. -/

/-- State `s'` comes from `s` by marking operations live on behalf of operation `user` in block
`b`. What was walked before is rewound to. -/
structure Marks (g : Graph) (b : BlockIndex) (user : OpIndex) (s s' : Liveness) : Prop where
  size_eq : s'.live.size = s.live.size
  mono : ∀ i, s.isLive i = true → s'.isLive i = true
  control_eq : s'.control = s.control
  rewrites_eq : s'.rewrites = s.rewrites
  pending_le : s.pending ≤ s'.pending
  pending_bound : s.pending ≤ g.blockCount → s'.pending ≤ g.blockCount
  rewound : ∀ {j : OpIndex} {h : BlockIndex}, g.owners[j]? = some h →
    (b < h ∨ h = b ∧ user < j) → s.isLive j = false → s'.isLive j = true → h < s'.pending
  progress : s'.pending = s.pending ∨ s'.deadCount < s.deadCount

namespace Marks

variable {user : OpIndex}

theorem refl (g : Graph) (b : BlockIndex) (user : OpIndex) (s : Liveness) : Marks g b user s s where
  size_eq := rfl
  mono _ h := h
  control_eq := rfl
  rewrites_eq := rfl
  pending_le := Nat.le_refl _
  pending_bound h := h
  rewound _ _ hold hnew := by
    rw [hold] at hnew
    cases hnew
  progress := Or.inl rfl

private theorem trans {s₁ : Liveness} (h : Marks g b user s s₁) (h' : Marks g b user s₁ s') :
    Marks g b user s s' where
  size_eq := h'.size_eq.trans h.size_eq
  mono i hi := h'.mono i (h.mono i hi)
  control_eq := h'.control_eq.trans h.control_eq
  rewrites_eq := h'.rewrites_eq.trans h.rewrites_eq
  pending_le := Nat.le_trans h.pending_le h'.pending_le
  pending_bound hle := h'.pending_bound (h.pending_bound hle)
  rewound {j home} hown hpos hold hnew := by
    cases hmid : s₁.isLive j with
    | true => exact Nat.lt_of_lt_of_le (h.rewound hown hpos hold hmid) h'.pending_le
    | false => exact h'.rewound hown hpos hmid hnew
  progress := by
    have hle := deadCount_le h.size_eq h.mono
    have hle' := deadCount_le h'.size_eq h'.mono
    rcases h.progress with heq | hlt
    · rcases h'.progress with heq' | hlt'
      · exact Or.inl (heq'.trans heq)
      · exact Or.inr (Nat.lt_of_lt_of_le hlt' hle)
    · exact Or.inr (Nat.lt_of_le_of_lt hle' hlt)

end Marks

private theorem markInput_marks (hg : g.Sound) {user input : OpIndex}
    (h : markInput g b user s input = .ok s') :
    Marks g b user s s' ∧ s'.isLive input = true := by
  rw [markInput] at h
  split at h
  · cases h
  · rename_i hlive
    cases h
    exact ⟨.refl g b user s, isLive_eq_true.mpr hlive⟩
  · rename_i hdead
    have hi : input < s.live.size := (Array.getElem?_eq_some_iff.mp hdead).1
    have hold : s.isLive input = false := by rw [isLive, hdead, Option.getD_some]
    obtain ⟨home, hhome, h⟩ := exists_of_bind_ok h
    have hown := Graph.blockOf_eq_ok.mp hhome
    have hmono : ∀ j, s.isLive j = true →
        isLive { s with live := s.live.setIfInBounds input true } j = true := fun j hj ↦
      (isLive_set hi j).mpr (Or.inr hj)
    have hset := (isLive_set (s := s) hi input).mpr (Or.inl rfl)
    have hsize : (s.live.setIfInBounds input true).size = s.live.size := Array.size_setIfInBounds
    have hprogress : deadCount { s with live := s.live.setIfInBounds input true } < s.deadCount :=
      deadCount_lt hsize hmono hold hset
    have honly : ∀ {j}, s.isLive j = false →
        isLive { s with live := s.live.setIfInBounds input true } j = true → j = input := by
      intro j hj hnew
      rcases (isLive_set hi j).mp hnew with rfl | hj'
      · rfl
      · rw [hj] at hj'
        cases hj'
    split at h
    · rename_i hpos
      cases h
      have hlt : home < g.blockCount := Graph.lt_blockCount_of_mem_span
        ((hg.mem_span_iff input home).mpr hown)
      refine ⟨⟨hsize, hmono, rfl, rfl, Nat.le_max_left _ _, fun hle ↦ Nat.max_le.mpr ⟨hle, hlt⟩,
        fun hown' _ hj hnew ↦ ?_, Or.inr hprogress⟩, hset⟩
      rw [honly hj hnew, hown] at hown'
      cases hown'
      exact Nat.le_max_right _ _
    · rename_i hpos
      cases h
      refine ⟨⟨hsize, hmono, rfl, rfl, Nat.le_refl _, fun hle ↦ hle,
        fun hown' hpos' hj hnew ↦ ?_, Or.inl rfl⟩, hset⟩
      have hjn := honly hj hnew
      subst hjn
      rw [hown] at hown'
      cases hown'
      exact absurd hpos' hpos

theorem foldlM_markInput (hg : g.Sound) {user : OpIndex} : ∀ {inputs : List OpIndex}
    {s s' : Liveness}, inputs.foldlM (markInput g b user) s = .ok s' →
    Marks g b user s s' ∧ ∀ j ∈ inputs, s'.isLive j = true := by
  intro inputs
  induction inputs with
  | nil =>
    intro s s' h
    cases h
    exact ⟨.refl g b user s, by simp⟩
  | cons input inputs ih =>
    intro s s' h
    rw [List.foldlM_cons] at h
    obtain ⟨s₁, h₁, h⟩ := exists_of_bind_ok h
    obtain ⟨hmarks₁, hlive₁⟩ := markInput_marks hg h₁
    obtain ⟨hmarks, hlive⟩ := ih h
    exact ⟨hmarks₁.trans hmarks, List.forall_mem_cons.mpr ⟨hmarks.mono _ hlive₁, hlive⟩⟩

/-! ## Stable blocks

A block is stable if a walk of its operations would find what is there. It looks at its own
operations and at the control states of its successors. -/

/-- The control state behind the last operation of a block. -/
def controlAfter (g : Graph) (s : Liveness) (b : BlockIndex) : Control :=
  (g.successors b).foldl (fun c t ↦ c.join (s.controlOf t)) .unreachable

def isLivePhi (g : Graph) (s : Liveness) (i : OpIndex) : Bool :=
  g.ops[i]?.any Operation.isPhi && s.isLive i

/-- What is found out about the listed operations of a block, when `after` is the control state
behind the last operation of the block. -/
structure Agrees (g : Graph) (s : Liveness) (after : Control) (l : List OpIndex) : Prop where
  required : ∀ {i : OpIndex} {op : Operation}, i ∈ l → g.ops[i]? = some op →
    op.isRequired = true → s.isLive i = true
  inputs : ∀ {i : OpIndex} {op : Operation}, i ∈ l → g.ops[i]? = some op → s.isLive i = true →
    op.action ≠ .dead ∧ ∀ j ∈ op.inputs, s.isLive j = true
  stays : ∀ {i : OpIndex} {op : Operation}, i ∈ l → g.ops[i]? = some op → op.isJump = true →
    after = .stays → s.isLive i = true ∧ s.rewrites.get? i = none
  passes : ∀ {i : OpIndex} {op : Operation} {t : BlockIndex}, i ∈ l → g.ops[i]? = some op →
    op.isJump = true → after = .passes t → s.rewrites.get? i = some t

/-- Only the listed operations and their inputs matter, and inputs may become live. -/
theorem Agrees.congr {after : Control} {l : List OpIndex} (h : Agrees g s after l)
    (hmono : ∀ i, s.isLive i = true → s'.isLive i = true)
    (hlive : ∀ i ∈ l, s'.isLive i = s.isLive i)
    (hrewrites : ∀ i ∈ l, s'.rewrites.get? i = s.rewrites.get? i) : Agrees g s' after l where
  required hi hop hreq := hmono _ (h.required hi hop hreq)
  inputs {i op} hi hop hlive' := by
    obtain ⟨hdead, hinputs⟩ := h.inputs hi hop ((hlive i hi).symm.trans hlive')
    exact ⟨hdead, fun j hj ↦ hmono j (hinputs j hj)⟩
  stays {i op} hi hop hjump hafter := by
    obtain ⟨hl, hnone⟩ := h.stays hi hop hjump hafter
    exact ⟨hmono i hl, (hrewrites i hi).trans hnone⟩
  passes {i op t} hi hop hjump hafter :=
    (hrewrites i hi).trans (h.passes hi hop hjump hafter)

/-- Walking a stable block again would change nothing. -/
structure Stable (g : Graph) (s : Liveness) (b : BlockIndex) : Prop where
  agrees : Agrees g s (controlAfter g s b) (g.span b).toList
  control : ∀ {blk : Block}, g.blocks[b]? = some blk →
    s.controlOf b = settle b blk
      (if (g.span b).toList.any s.isLive then .stays else controlAfter g s b)
      ((g.span b).toList.any (isLivePhi g s))

theorem any_congr_of_mem {l : List OpIndex} {p q : OpIndex → Bool} (h : ∀ i ∈ l, p i = q i) :
    l.any p = l.any q := by
  rw [Bool.eq_iff_iff, List.any_eq_true, List.any_eq_true]
  exact exists_congr fun i ↦ and_congr_right fun hi ↦ by rw [h i hi]

theorem any_isLivePhi_congr {l : List OpIndex} (h : ∀ i ∈ l, s'.isLive i = s.isLive i) :
    l.any (isLivePhi g s') = l.any (isLivePhi g s) := by
  refine any_congr_of_mem fun i hi ↦ ?_
  rw [isLivePhi, isLivePhi, h i hi]

private theorem Stable.congr (h : Stable g s b)
    (hmono : ∀ i, s.isLive i = true → s'.isLive i = true)
    (hlive : ∀ i ∈ (g.span b).toList, s'.isLive i = s.isLive i)
    (hrewrites : ∀ i ∈ (g.span b).toList, s'.rewrites.get? i = s.rewrites.get? i)
    (hafter : controlAfter g s' b = controlAfter g s b)
    (hcontrol : s'.controlOf b = s.controlOf b) : Stable g s' b where
  agrees := by
    rw [hafter]
    exact h.agrees.congr hmono hlive hrewrites
  control {blk} hblk := by
    rw [hcontrol, h.control hblk, hafter, any_isLivePhi_congr hlive, any_congr_of_mem hlive]

private theorem controlAfter_congr (h : ∀ t ∈ g.successors b, s'.controlOf t = s.controlOf t) :
    controlAfter g s' b = controlAfter g s b := by
  refine List.foldl_ext _ _ _ fun c t ht ↦ ?_
  rw [h t ht]

/-! ## Walking an operation

Operations are walked from the last to the first, and what has been walked of the block stays as it
was found unless the walk is rewound. An operation is judged live, is dropped, or is a jump that is
rewritten, and a live one marks its inputs. -/

/-- What is known while a block is walked: `l` are the operations that were walked already, and
`after` is the control state behind the last one. As soon as the walk is rewound to the block
itself or to a later one nothing needs to be said about `l`, since the block is walked again. -/
structure Walked (g : Graph) (b : BlockIndex) (s : Liveness) (after : Control) (l : List OpIndex)
    (w : Walk) : Prop where
  sized : Sized g w.state
  size_eq : w.state.live.size = s.live.size
  mono : ∀ i, s.isLive i = true → w.state.isLive i = true
  control_eq : w.state.control = s.control
  rewrites_eq : ∀ i ∉ l, w.state.rewrites.get? i = s.rewrites.get? i
  pending_le : s.pending ≤ w.state.pending
  pending_bound : w.state.pending ≤ g.blockCount
  rewound : ∀ {j : OpIndex} {h : BlockIndex}, g.owners[j]? = some h → b < h →
    s.isLive j = false → w.state.isLive j = true → h < w.state.pending
  progress : w.state.pending = s.pending ∨ w.state.deadCount < s.deadCount
  agrees : w.state.pending ≤ b → Agrees g w.state after l
  control : w.state.pending ≤ b → w.control = if l.any w.state.isLive then .stays else after
  livePhi : w.state.pending ≤ b → w.livePhi = l.any (isLivePhi g w.state)

/-- What becomes of a state when an operation is judged. Only the rewrite of the operation itself
can change. -/
structure Judged (g : Graph) (s : Liveness) (control : Control) (i : OpIndex) (op : Operation)
    (live : Bool) (s' : Liveness) : Prop where
  sized : Sized g s'
  live_eq : s'.live = s.live
  control_eq : s'.control = s.control
  pending_eq : s'.pending = s.pending
  rewrites_eq : ∀ j ≠ i, s'.rewrites.get? j = s.rewrites.get? j
  plain : op.isJump = false → live = (op.isRequired || s.isLive i)
  jump : op.isJump = true → control ≠ .stays → live = s.isLive i
  stays : op.isJump = true → control = .stays → live = true ∧ s'.rewrites.get? i = none
  passes : ∀ {t}, op.isJump = true → control = .passes t → s'.rewrites.get? i = some t

theorem judge_judged {i : OpIndex} (hs : Sized g s) (hi : i < g.opCount) (control : Control)
    (op : Operation) :
    Judged g s control i op (judge s control i op).1 (judge s control i op).2 := by
  have hcap : i < s.rewrites.capacity := by rw [hs.capacity]; exact hi
  unfold judge
  cases hjump : op.isJump with
  | false =>
    have hno : op.isJump ≠ true := by simp [hjump]
    exact ⟨hs, rfl, rfl, rfl, fun _ _ ↦ rfl, fun _ ↦ rfl, fun h ↦ absurd h hno,
      fun h ↦ absurd h hno, fun h ↦ absurd h hno⟩
  | true =>
    have hno : op.isJump ≠ false := by simp [hjump]
    -- what lies behind a jump decides whether it is dropped, rewritten or kept
    cases control with
    | unreachable =>
      exact ⟨hs, rfl, rfl, rfl, fun _ _ ↦ rfl, fun h ↦ absurd h hno, fun _ _ ↦ rfl, nofun, nofun⟩
    | passes t =>
      have htidy : (s.rewrites.insert i t).Tidy := IndexMap.Tidy.insert hs.tidy hcap t
      refine ⟨⟨hs.live, hs.control, htidy, ?_⟩, rfl, rfl, rfl, fun j hj ↦ ?_,
        fun h ↦ absurd h hno, fun _ _ ↦ rfl, nofun, fun {t'} _ heq ↦ ?_⟩
      · exact (IndexMap.capacity_insert _ _ _).trans hs.capacity
      · exact (IndexMap.get?_insert hs.tidy hcap t j).trans (if_neg hj)
      · cases heq
        exact (IndexMap.get?_insert hs.tidy hcap t i).trans (if_pos rfl)
    | stays =>
      have htidy : (s.rewrites.erase i).Tidy := IndexMap.Tidy.erase hs.tidy i
      refine ⟨⟨hs.live, hs.control, htidy, ?_⟩, rfl, rfl, rfl, fun j hj ↦ ?_,
        fun h ↦ absurd h hno, fun _ hne ↦ absurd rfl hne, fun _ _ ↦ ⟨rfl, ?_⟩, nofun⟩
      · exact (IndexMap.capacity_erase _ _).trans hs.capacity
      · exact (IndexMap.get?_erase hs.tidy i j).trans (if_neg hj)
      · exact (IndexMap.get?_erase hs.tidy i i).trans (if_pos rfl)

/-- Walks an operation of block `b` that was not removed, with the leaf flag set anew. -/
def walkJudged (g : Graph) (b : BlockIndex) (w : Walk) (i : OpIndex) (op : Operation)
    (leaf : Bool) : Except Breach Walk :=
  let s := { w.state with leaf }
  let livePhi := w.livePhi || (op.isPhi && s.isLive i)
  let (live, s) := judge s w.control i op
  if !live then return ⟨s, w.control, livePhi⟩
  else do
    let s ← op.inputs.foldlM (markInput g b i) { s with live := s.live.setIfInBounds i true }
    return ⟨s, .stays, livePhi⟩

private theorem of_walkJudged {i : OpIndex} {op : Operation} {w w' : Walk} {leaf : Bool}
    (hs : Sized g w.state) (hi : i < g.opCount) (h : walkJudged g b w i op leaf = .ok w') :
    w'.livePhi = (w.livePhi || (op.isPhi && w.state.isLive i)) ∧
      ∃ live s₁, Judged g w.state w.control i op live s₁ ∧
        ((live = false ∧ w'.state = s₁ ∧ w'.control = w.control) ∨
          (live = true ∧ w'.control = .stays ∧ op.inputs.foldlM (markInput g b i)
            { s₁ with live := s₁.live.setIfInBounds i true } = .ok w'.state)) := by
  have hj := judge_judged (s := { w.state with leaf })
    ⟨hs.live, hs.control, hs.tidy, hs.capacity⟩ hi w.control op
  have hj' : Judged g w.state w.control i op _ _ := ⟨hj.sized, hj.live_eq, hj.control_eq,
    hj.pending_eq, hj.rewrites_eq, hj.plain, hj.jump, hj.stays, hj.passes⟩
  simp only [walkJudged] at h
  split at h
  · rename_i hlive
    cases h
    exact ⟨rfl, _, _, hj', Or.inl ⟨by simpa using hlive, rfl, rfl⟩⟩
  · rename_i hlive
    obtain ⟨s₂, hs₂, h⟩ := exists_of_bind_ok h
    cases h
    exact ⟨rfl, _, _, hj', Or.inr ⟨by simpa using hlive, rfl, hs₂⟩⟩

private theorem walkOp_eq_ok {i : OpIndex} {op : Operation} {w w' : Walk} (hs : Sized g w.state)
    (hop : g.ops[i]? = some op) (h : walkOp g b w i = .ok w') :
    (op.action = .dead ∧ w.state.isLive i = false ∧ w' = w) ∨
    op.action ≠ .dead ∧ w'.livePhi = (w.livePhi || (op.isPhi && w.state.isLive i)) ∧
      ∃ live s₁, Judged g w.state w.control i op live s₁ ∧
        ((live = false ∧ w'.state = s₁ ∧ w'.control = w.control) ∨
          (live = true ∧ w'.control = .stays ∧ op.inputs.foldlM (markInput g b i)
            { s₁ with live := s₁.live.setIfInBounds i true } = .ok w'.state)) := by
  rw [walkOp, Graph.op_eq_ok.mpr hop, ok_bind] at h
  split at h
  · rename_i hdead
    split at h
    · cases h
    · rename_i hlive
      cases h
      exact Or.inl ⟨hdead, by simpa using hlive, rfl⟩
  · rename_i hdead
    right
    refine ⟨hdead, ?_⟩
    split at h
    · exact of_walkJudged hs (Graph.lt_opCount hop) h
    · exact of_walkJudged hs (Graph.lt_opCount hop) h

theorem Agrees.cons {after : Control} {l : List OpIndex} {i : OpIndex} {op : Operation}
    (h : Agrees g s after l) (hop : g.ops[i]? = some op)
    (hrequired : op.isRequired = true → s.isLive i = true)
    (hinputs : s.isLive i = true → op.action ≠ .dead ∧ ∀ j ∈ op.inputs, s.isLive j = true)
    (hstays : op.isJump = true → after = .stays → s.isLive i = true ∧ s.rewrites.get? i = none)
    (hpasses : ∀ {t}, op.isJump = true → after = .passes t → s.rewrites.get? i = some t) :
    Agrees g s after (i :: l) := by
  have heq : ∀ {op'}, g.ops[i]? = some op' → op' = op := fun hop' ↦
    Option.some.inj (hop'.symm.trans hop)
  constructor
  · intro j op' hj hop'
    rcases List.mem_cons.mp hj with rfl | hj
    · rw [heq hop']
      exact hrequired
    · exact h.required hj hop'
  · intro j op' hj hop'
    rcases List.mem_cons.mp hj with rfl | hj
    · rw [heq hop']
      exact hinputs
    · exact h.inputs hj hop'
  · intro j op' hj hop'
    rcases List.mem_cons.mp hj with rfl | hj
    · rw [heq hop']
      exact hstays
    · exact h.stays hj hop'
  · intro j op' t hj hop'
    rcases List.mem_cons.mp hj with rfl | hj
    · rw [heq hop']
      exact hpasses
    · exact h.passes hj hop'

theorem isRequired_of_isJump {op : Operation} (h : op.isJump = true) : op.isRequired = false := by
  obtain ⟨action, _⟩ := op
  cases action <;> simp_all [Operation.isJump, Operation.isRequired]

theorem isRequired_of_isPhi {op : Operation} (h : op.isPhi = true) :
    op.isRequired = false ∧ op.isJump = false := by
  obtain ⟨action, _⟩ := op
  cases action <;> simp_all [Operation.isPhi, Operation.isRequired, Operation.isJump]

theorem isLivePhi_eq {i : OpIndex} {op : Operation} (hop : g.ops[i]? = some op) :
    isLivePhi g s i = (op.isPhi && s.isLive i) := by
  rw [isLivePhi, hop, Option.any_some]

/-- State `s'` comes from `s` by judging operation `i` of block `b` live, where `control` is the
control state behind it, and by marking its inputs. -/
structure Revived (g : Graph) (b : BlockIndex) (s : Liveness) (control : Control) (i : OpIndex)
    (op : Operation) (s' : Liveness) : Prop where
  sized : Sized g s'
  size_eq : s'.live.size = s.live.size
  mono : ∀ j, s.isLive j = true → s'.isLive j = true
  self : s'.isLive i = true
  inputs : ∀ j ∈ op.inputs, s'.isLive j = true
  control_eq : s'.control = s.control
  rewrites_eq : ∀ j ≠ i, s'.rewrites.get? j = s.rewrites.get? j
  pending_le : s.pending ≤ s'.pending
  pending_bound : s.pending ≤ g.blockCount → s'.pending ≤ g.blockCount
  rewound : ∀ {j : OpIndex} {h : BlockIndex}, g.owners[j]? = some h → (b < h ∨ h = b ∧ i < j) →
    j ≠ i → s.isLive j = false → s'.isLive j = true → h < s'.pending
  progress : s'.pending = s.pending ∨ s'.deadCount < s.deadCount
  phi : op.isPhi = true → s.isLive i = true
  stays : op.isJump = true → control = .stays → s'.rewrites.get? i = none
  passes : ∀ {t}, op.isJump = true → control = .passes t → s'.rewrites.get? i = some t

private theorem Judged.revived {control : Control} {i : OpIndex} {op : Operation} {s₁ : Liveness}
    (hg : g.Sound) (hop : g.ops[i]? = some op) (hj : Judged g s control i op true s₁)
    (hmark : op.inputs.foldlM (markInput g b i)
      { s₁ with live := s₁.live.setIfInBounds i true } = .ok s') :
    Revived g b s control i op s' := by
  obtain ⟨hmarks, hinputs⟩ := foldlM_markInput hg hmark
  have hi : i < s₁.live.size := by
    rw [hj.sized.live]
    exact Graph.lt_opCount hop
  have hset : ∀ j, isLive { s₁ with live := s₁.live.setIfInBounds i true } j = true ↔
      j = i ∨ s.isLive j = true := fun j ↦ by
    have hold : s₁.isLive j = s.isLive j := by rw [isLive, isLive, hj.live_eq]
    rw [isLive_set hi, hold]
  have hsize : (s₁.live.setIfInBounds i true).size = s.live.size := by
    rw [Array.size_setIfInBounds, hj.live_eq]
  exact {
    sized := {
      live := by rw [hmarks.size_eq, Array.size_setIfInBounds, hj.sized.live]
      control := by rw [hmarks.control_eq]; exact hj.sized.control
      tidy := by rw [hmarks.rewrites_eq]; exact hj.sized.tidy
      capacity := by rw [hmarks.rewrites_eq]; exact hj.sized.capacity }
    size_eq := hmarks.size_eq.trans hsize
    mono := fun j hl ↦ hmarks.mono j ((hset j).mpr (Or.inr hl))
    self := hmarks.mono i ((hset i).mpr (Or.inl rfl))
    inputs := hinputs
    control_eq := hmarks.control_eq.trans hj.control_eq
    rewrites_eq := fun j hne ↦ by
      rw [hmarks.rewrites_eq]
      exact hj.rewrites_eq j hne
    pending_le := hj.pending_eq ▸ hmarks.pending_le
    pending_bound := fun hle ↦ hmarks.pending_bound (hj.pending_eq.symm ▸ hle)
    rewound := fun {j h} hown hpos hne hold hnew ↦ by
      refine hmarks.rewound hown hpos ?_ hnew
      rw [← Bool.not_eq_true, hset, not_or, hold]
      exact ⟨hne, Bool.false_ne_true⟩
    progress := hmarks.progress.imp (fun heq ↦ heq.trans hj.pending_eq) fun hlt ↦
      Nat.lt_of_lt_of_le hlt (deadCount_le hsize fun j hl ↦ (hset j).mpr (Or.inr hl))
    phi := fun hp ↦ by
      obtain ⟨hreq, hjump⟩ := isRequired_of_isPhi hp
      have hlive := hj.plain hjump
      rw [hreq, Bool.false_or] at hlive
      exact hlive.symm
    stays := fun hc hstays ↦ by
      rw [hmarks.rewrites_eq]
      exact (hj.stays hc hstays).2
    passes := fun hc hpasses ↦ by
      rw [hmarks.rewrites_eq]
      exact hj.passes hc hpasses }

section WalkOp

variable {after : Control} {l : List OpIndex} {i : OpIndex} {op : Operation} {w w' : Walk}

private theorem Walked.removed (h : Walked g b s after l w) (hop : g.ops[i]? = some op)
    (hdead : op.action = .dead) (hlive : w.state.isLive i = false) :
    Walked g b s after (i :: l) w where
  sized := h.sized
  size_eq := h.size_eq
  mono := h.mono
  control_eq := h.control_eq
  rewrites_eq j hj := h.rewrites_eq j fun hmem ↦ hj (List.mem_cons_of_mem i hmem)
  pending_le := h.pending_le
  pending_bound := h.pending_bound
  rewound := h.rewound
  progress := h.progress
  agrees hle := by
    refine (h.agrees hle).cons hop (fun hreq ↦ ?_) (fun hl ↦ ?_) (fun hjump ↦ ?_) fun hjump ↦ ?_
    · simp [Operation.isRequired, hdead] at hreq
    · rw [hlive] at hl
      cases hl
    · simp [Operation.isJump, hdead] at hjump
    · simp [Operation.isJump, hdead] at hjump
  control hle := by rw [List.any_cons, hlive, Bool.false_or, h.control hle]
  livePhi hle := by
    rw [List.any_cons, isLivePhi_eq hop, hlive, Bool.and_false, Bool.false_or, h.livePhi hle]

private theorem Walked.dropped (h : Walked g b s after l w) (hop : g.ops[i]? = some op)
    (hbefore : ∀ j ∈ l, i < j) (hjump : op.isJump = true → l = []) {s₁ : Liveness}
    (hj : Judged g w.state w.control i op false s₁) (hstate : w'.state = s₁)
    (hcontrol : w'.control = w.control)
    (hphi : w'.livePhi = (w.livePhi || (op.isPhi && w.state.isLive i))) :
    Walked g b s after (i :: l) w' := by
  subst hstate
  have hlive : ∀ j, w'.state.isLive j = w.state.isLive j := fun j ↦ by
    rw [isLive, isLive, hj.live_eq]
  have hdead : op.isRequired = false ∧ w.state.isLive i = false := by
    cases hc : op.isJump with
    | true =>
      refine ⟨isRequired_of_isJump hc, (hj.jump hc fun hstays ↦ ?_).symm⟩
      exact absurd (hj.stays hc hstays).1 (by simp)
    | false => simpa using (hj.plain hc).symm
  have hcount : w'.state.deadCount = w.state.deadCount := by
    rw [deadCount, deadCount, hj.live_eq]
    simp only [hlive]
  exact {
    sized := hj.sized
    size_eq := by rw [hj.live_eq, h.size_eq]
    mono := fun j hl ↦ (hlive j).trans (h.mono j hl)
    control_eq := hj.control_eq.trans h.control_eq
    rewrites_eq := fun j hmem ↦ by
      rw [List.mem_cons, not_or] at hmem
      exact (hj.rewrites_eq j hmem.1).trans (h.rewrites_eq j hmem.2)
    pending_le := hj.pending_eq ▸ h.pending_le
    pending_bound := hj.pending_eq ▸ h.pending_bound
    rewound := fun hown hlt hold hnew ↦ by
      rw [hj.pending_eq]
      exact h.rewound hown hlt hold ((hlive _).symm.trans hnew)
    progress := by
      rw [hj.pending_eq, hcount]
      exact h.progress
    agrees := fun hle ↦ by
      rw [hj.pending_eq] at hle
      -- a jump comes last, so that nothing behind it in the block has changed the control yet
      have hbehind : op.isJump = true → w.control = after := fun hc ↦ by
        rw [h.control hle, hjump hc]
        rfl
      refine ((h.agrees hle).congr (fun j hl ↦ (hlive j).trans hl) (fun j _ ↦ hlive j)
        fun j hmem ↦ hj.rewrites_eq j (Nat.ne_of_gt (hbefore j hmem))).cons hop ?_ ?_ ?_ ?_
      · rw [hdead.1]
        exact nofun
      · rw [hlive, hdead.2]
        exact nofun
      · intro hc hafter
        exact absurd (hj.stays hc ((hbehind hc).trans hafter)).1 (by simp)
      · intro t hc hafter
        exact hj.passes hc ((hbehind hc).trans hafter)
    control := fun hle ↦ by
      rw [hj.pending_eq] at hle
      rw [hcontrol, h.control hle, List.any_cons, hlive, hdead.2, Bool.false_or,
        any_congr_of_mem fun j _ ↦ hlive j]
    livePhi := fun hle ↦ by
      rw [hj.pending_eq] at hle
      rw [hphi, h.livePhi hle, List.any_cons, isLivePhi_eq hop, hlive, hdead.2, Bool.and_false,
        Bool.or_false, Bool.false_or, any_isLivePhi_congr fun j _ ↦ hlive j] }

/-- A live operation: it is marked, and its inputs are. Another operation of the block that was
walked before becomes live only if the walk is rewound to the block. -/
private theorem Walked.marked (h : Walked g b s after l w) (hop : g.ops[i]? = some op)
    (hdead : op.action ≠ .dead) (hi₀ : g.owners[i]? = some b) (hbefore : ∀ j ∈ l, i < j)
    (hown : ∀ j ∈ l, g.owners[j]? = some b) (hjump : op.isJump = true → l = [])
    (hr : Revived g b w.state w.control i op w'.state) (hcontrol : w'.control = .stays)
    (hphi : w'.livePhi = (w.livePhi || (op.isPhi && w.state.isLive i))) :
    Walked g b s after (i :: l) w' := by
  have hsame : w'.state.pending ≤ b → ∀ j ∈ l, w'.state.isLive j = w.state.isLive j := by
    intro hle j hmem
    cases hold : w.state.isLive j with
    | true => exact hr.mono j hold
    | false =>
      rw [← Bool.not_eq_true]
      intro hnew
      exact absurd (hr.rewound (hown j hmem) (Or.inr ⟨rfl, hbefore j hmem⟩)
        (Nat.ne_of_gt (hbefore j hmem)) hold hnew) (Nat.not_lt.mpr hle)
  exact {
    sized := hr.sized
    size_eq := hr.size_eq.trans h.size_eq
    mono := fun j hl ↦ hr.mono j (h.mono j hl)
    control_eq := hr.control_eq.trans h.control_eq
    rewrites_eq := fun j hmem ↦ by
      rw [List.mem_cons, not_or] at hmem
      exact (hr.rewrites_eq j hmem.1).trans (h.rewrites_eq j hmem.2)
    pending_le := Nat.le_trans h.pending_le hr.pending_le
    pending_bound := hr.pending_bound h.pending_bound
    rewound := fun {j home} hown' hlt hold hnew ↦ by
      cases hmid : w.state.isLive j with
      | true => exact Nat.lt_of_lt_of_le (h.rewound hown' hlt hold hmid) hr.pending_le
      | false =>
        refine hr.rewound hown' (Or.inl hlt) ?_ hmid hnew
        rintro rfl
        rw [hi₀] at hown'
        cases hown'
        exact absurd hlt (Nat.lt_irrefl b)
    progress := by
      have hle := deadCount_le hr.size_eq hr.mono
      have hle₀ := deadCount_le h.size_eq h.mono
      rcases hr.progress with heq | hlt
      · exact h.progress.imp heq.trans fun hlt ↦ Nat.lt_of_le_of_lt hle hlt
      · exact Or.inr (Nat.lt_of_lt_of_le hlt hle₀)
    agrees := fun hle ↦ by
      have hle₀ := Nat.le_trans hr.pending_le hle
      have hbehind : op.isJump = true → w.control = after := fun hc ↦ by
        rw [h.control hle₀, hjump hc]
        rfl
      exact ((h.agrees hle₀).congr hr.mono (hsame hle) fun j hmem ↦
        hr.rewrites_eq j (Nat.ne_of_gt (hbefore j hmem))).cons hop (fun _ ↦ hr.self)
        (fun _ ↦ ⟨hdead, hr.inputs⟩)
        (fun hc hafter ↦ ⟨hr.self, hr.stays hc ((hbehind hc).trans hafter)⟩)
        fun hc hafter ↦ hr.passes hc ((hbehind hc).trans hafter)
    control := fun _ ↦ by rw [hcontrol, List.any_cons, hr.self, Bool.true_or, if_pos rfl]
    livePhi := fun hle ↦ by
      rw [hphi, h.livePhi (Nat.le_trans hr.pending_le hle), List.any_cons, isLivePhi_eq hop,
        hr.self, any_isLivePhi_congr (hsame hle), Bool.or_comm]
      congr 1
      cases hp : op.isPhi with
      | false => rfl
      | true => rw [hr.phi hp] }

private theorem Walked.step (hg : g.Sound) (h : Walked g b s after l w) (hi : g.owners[i]? = some b)
    (hbefore : ∀ j ∈ l, i < j) (hown : ∀ j ∈ l, g.owners[j]? = some b)
    (hjump : ∀ {op}, g.ops[i]? = some op → op.isJump = true → l = [])
    (hw : walkOp g b w i = .ok w') : Walked g b s after (i :: l) w' := by
  obtain ⟨op, hop⟩ := Graph.exists_op (hg.lt_of_mem_span ((hg.mem_span_iff i b).mpr hi))
  rcases walkOp_eq_ok h.sized hop hw with ⟨hdead, hlive, rfl⟩ | ⟨hdead, hphi, live, s₁, hj, hcase⟩
  · exact h.removed hop hdead hlive
  · rcases hcase with ⟨rfl, hstate, hcontrol⟩ | ⟨rfl, hcontrol, hmark⟩
    · exact h.dropped hop hbefore (hjump hop) hj hstate hcontrol hphi
    · exact h.marked hop hdead hi hbefore hown (hjump hop) (hj.revived hg hop hmark) hcontrol hphi

end WalkOp

/-! ## Walking a block

A block begins with the join of the control states behind it and ends with one of its own. If that
one has changed at a loop, the walk goes back to the latest predecessor of the loop. -/

private theorem Walked.run (hg : g.Sound) {after : Control}
    (hjump : ∀ {i : OpIndex} {op : Operation}, i ∈ (g.span b).toList → g.ops[i]? = some op →
      op.isJump = true → (g.span b).last? = some i) :
    ∀ {pre l : List OpIndex} {w w' : Walk}, pre.reverse ++ l = (g.span b).toList →
      Walked g b s after l w → pre.foldlM (walkOp g b) w = .ok w' →
      Walked g b s after (g.span b).toList w' := by
  intro pre
  induction pre with
  | nil =>
    intro l w w' hl h hw
    cases hw
    rwa [← hl]
  | cons i pre ih =>
    intro l w w' hl h hw
    rw [List.foldlM_cons] at hw
    obtain ⟨w₁, hw₁, hw⟩ := exists_of_bind_ok hw
    rw [List.reverse_cons, List.append_assoc, List.singleton_append] at hl
    have hown : ∀ j ∈ i :: l, g.owners[j]? = some b := fun j hj ↦
      (hg.mem_span_iff j b).mp (hl ▸ List.mem_append_right _ hj)
    have hsorted : (i :: l).Pairwise (· < ·) := by
      have : ((g.span b).toList).Pairwise (· < ·) := List.pairwise_lt_range'
      rw [← hl] at this
      exact (List.pairwise_append.mp this).2.1
    refine ih hl (h.step hg (hown i List.mem_cons_self) (List.pairwise_cons.mp hsorted).1
      (fun j hj ↦ hown j (List.mem_cons_of_mem i hj)) (fun {op} hop hc ↦ ?_) hw₁) hw
    -- the jump is the last operation of its block, so that nothing was walked before it
    have hmem : i ∈ (g.span b).toList := hl ▸ List.mem_append_right _ List.mem_cons_self
    have hlast := hjump hmem hop hc
    rw [Span.last?_eq_getLast?, ← hl] at hlast
    cases l with
    | nil => rfl
    | cons j l =>
      have hget : (pre.reverse ++ i :: j :: l).getLast? = (j :: l).getLast? := by
        rw [List.getLast?_append_of_ne_nil _ (by simp), List.getLast?_cons_cons]
      rw [hget] at hlast
      have := (List.pairwise_cons.mp hsorted).1 i (List.mem_of_getLast? hlast)
      exact absurd this (Nat.lt_irrefl i)

private theorem le_foldl_max : ∀ {l : List Nat} {m : Nat},
    m ≤ l.foldl max m ∧ ∀ n ∈ l, n ≤ l.foldl max m
  | [], m => ⟨Nat.le_refl m, by simp⟩
  | n :: l, m => by
    obtain ⟨hm, hl⟩ := le_foldl_max (l := l) (m := max m n)
    rw [List.foldl_cons]
    exact ⟨by omega, List.forall_mem_cons.mpr ⟨by omega, hl⟩⟩

private theorem foldl_max_lt {k : Nat} : ∀ {l : List Nat} {m : Nat}, m < k → (∀ n ∈ l, n < k) →
    l.foldl max m < k
  | [], m, hm, _ => hm
  | n :: l, m, hm, hl => by
    rw [List.forall_mem_cons] at hl
    rw [List.foldl_cons]
    exact foldl_max_lt (by omega) hl.2

private theorem latestPredecessor_lt (hg : g.Sound) (hb : b < g.blockCount) :
    latestPredecessor g b < g.blockCount :=
  foldl_max_lt hb fun _ hp ↦ (hg.edge_lt (Graph.mem_predecessors.mp hp)).1

/-- A step walks the last of the pending blocks. -/
theorem step_eq (hb : s.pending = b + 1) :
    Liveness.step g s = walkBlock g { s with pending := b } b := by
  rw [Liveness.step, hb, Nat.add_sub_cancel]

/-- What a walked block leaves behind. A rewind to the latest predecessor happens only at a loop
whose control state changes. -/
private theorem walkBlock_eq_ok (h : walkBlock g s b = .ok s') :
    ∃ blk w control, g.blocks[b]? = some blk ∧
      (g.span b).toList.reverse.foldlM (walkOp g b) ⟨s, controlAfter g s b, false⟩ = .ok w ∧
      control = settle b blk w.control w.livePhi ∧ s'.live = w.state.live ∧
      s'.rewrites = w.state.rewrites ∧ s'.control = w.state.control.setIfInBounds b control ∧
      ((blk.isLoop = true ∧ w.state.controlOf b ≠ control ∧
          s'.pending = max w.state.pending (latestPredecessor g b + 1)) ∨
        (blk.isLoop = true → w.state.controlOf b = control) ∧
          s'.pending = w.state.pending) := by
  rw [walkBlock] at h
  obtain ⟨blk, hblk, h⟩ := exists_of_bind_ok h
  have hblk := Graph.block_eq_ok.mp hblk
  obtain ⟨w, hw, h⟩ := exists_of_bind_ok h
  rw [← Graph.span_of_block hblk] at hw
  cases h
  refine ⟨blk, w, _, hblk, hw, rfl, ?_⟩
  split
  · rename_i hloop
    rw [Bool.and_eq_true, decide_eq_true_eq] at hloop
    exact ⟨rfl, rfl, rfl, Or.inl ⟨hloop.1, hloop.2, rfl⟩⟩
  · rename_i hloop
    rw [Bool.and_eq_true, decide_eq_true_eq, not_and, not_not] at hloop
    exact ⟨rfl, rfl, rfl, Or.inr ⟨hloop, rfl⟩⟩

/-! ## One step

A step walks the block below the pending ones. The effort that is left falls with every step: a
rewind costs an operation that was dead or a loop that was not settled, and otherwise there is one
pending block less. -/

/-- The loop blocks that are not known to be needed. -/
def unsettled (g : Graph) (s : Liveness) : Nat :=
  ((Finset.range g.blockCount).filter fun b ↦
    g.blocks[b]?.any Block.isLoop = true ∧ s.controlOf b ≠ .stays).card

/-- What is left to do. A rewind costs at most all blocks again, and takes one away from the
operations that are dead or from the loops that are not settled. -/
def effort (g : Graph) (s : Liveness) : Nat :=
  (s.deadCount + unsettled g s) * (g.blockCount + 1) + s.pending

/-- The blocks that are not pending are stable. -/
structure Underway (g : Graph) (s : Liveness) : Prop where
  sized : Sized g s
  pending_le : s.pending ≤ g.blockCount
  stable : ∀ {b}, s.pending ≤ b → b < g.blockCount → Stable g s b

private theorem controlOf_set {c : BlockIndex} {control : Control} (hsize : b < s.control.size)
    (h : s'.control = s.control.setIfInBounds b control) :
    s'.controlOf c = if c = b then control else s.controlOf c := by
  rw [controlOf, h]
  split
  · rename_i hc
    rw [hc, Array.getElem?_setIfInBounds_self_of_lt hsize, Option.getD_some]
  · rename_i hc
    rw [Array.getElem?_setIfInBounds_ne (Ne.symm hc), controlOf]

private theorem walked_nil (hs : Sized g s) (hle : s.pending ≤ g.blockCount) (after : Control) :
    Walked g b s after [] ⟨s, after, false⟩ where
  sized := hs
  size_eq := rfl
  mono _ hl := hl
  control_eq := rfl
  rewrites_eq _ _ := rfl
  pending_le := Nat.le_refl _
  pending_bound := hle
  rewound _ _ hold hnew := by
    rw [hold] at hnew
    cases hnew
  progress := Or.inl rfl
  agrees _ := ⟨nofun, nofun, nofun, nofun⟩
  control _ := rfl
  livePhi _ := rfl

theorem settle_of_isLoop {blk : Block} (h : blk.isLoop = true) (control : Control)
    (livePhi : Bool) : settle b blk control livePhi = .stays := by
  rw [settle, if_pos h]

private theorem unsettled_le (h : ∀ c, g.blocks[c]?.any Block.isLoop = true →
    s'.controlOf c ≠ .stays → s.controlOf c ≠ .stays) : unsettled g s' ≤ unsettled g s := by
  refine Finset.card_le_card fun c hc ↦ ?_
  rw [Finset.mem_filter] at hc ⊢
  exact ⟨hc.1, hc.2.1, h c hc.2.1 hc.2.2⟩

private theorem unsettled_lt (h : ∀ c, g.blocks[c]?.any Block.isLoop = true →
    s'.controlOf c ≠ .stays → s.controlOf c ≠ .stays) {blk : Block}
    (hblk : g.blocks[b]? = some blk) (hloop : blk.isLoop = true) (hold : s.controlOf b ≠ .stays)
    (hnew : s'.controlOf b = .stays) : unsettled g s' < unsettled g s := by
  refine Finset.card_lt_card ((Finset.ssubset_iff_of_subset fun c hc ↦ ?_).mpr ⟨b, ?_, ?_⟩)
  · rw [Finset.mem_filter] at hc ⊢
    exact ⟨hc.1, hc.2.1, h c hc.2.1 hc.2.2⟩
  · refine Finset.mem_filter.mpr ⟨Finset.mem_range.mpr (Graph.lt_blockCount hblk), ?_, hold⟩
    rw [hblk, Option.any_some, hloop]
  · rw [Finset.mem_filter]
    exact fun hmem ↦ hmem.2.2 hnew

private theorem effort_lt (hle : s'.pending ≤ g.blockCount)
    (h : s'.deadCount + unsettled g s' < s.deadCount + unsettled g s) :
    effort g s' < effort g s := by
  have hmul := Nat.mul_le_mul_right (g.blockCount + 1) h
  rw [Nat.succ_mul] at hmul
  rw [effort, effort]
  omega

/-- A block that the same or a later block leads to is a loop. -/
theorem isLoop_of_arc (hfit : g.Fit) (hord : g.InReversePostorder) {c : BlockIndex}
    {blk : Block} (hblk : g.blocks[b]? = some blk) (harc : g.Arc c b) (hle : b ≤ c) :
    blk.isLoop = true :=
  (hfit.loopsMarked hblk).mpr ⟨c, (hord c b harc).mpr hle⟩

private theorem le_latestPredecessor (hg : g.Sound) {c : BlockIndex} (harc : g.Arc c b) :
    c ≤ latestPredecessor g b :=
  le_foldl_max.2 c (hg.mem_predecessors_iff.mpr harc)

/-- What a step from state `s` to state `s'` does: it walks block `b`, which is described by `w`. -/
structure Stepped (g : Graph) (s : Liveness) (b : BlockIndex) (blk : Block) (w : Walk)
    (s' : Liveness) : Prop where
  pending_eq : s.pending = b + 1
  block : g.blocks[b]? = some blk
  walked : Walked g b { s with pending := b } (controlAfter g s b) (g.span b).toList w
  live : s'.live = w.state.live
  rewrites : s'.rewrites = w.state.rewrites
  controlOf : ∀ c, s'.controlOf c =
    if c = b then settle b blk w.control w.livePhi else s.controlOf c
  control_size : s'.control.size = s.control.size
  pending : (blk.isLoop = true ∧ s.controlOf b ≠ .stays ∧
      s'.pending = max w.state.pending (latestPredecessor g b + 1)) ∨
    (blk.isLoop = true → s.controlOf b = .stays) ∧ s'.pending = w.state.pending

/-- A jump can only be the last operation of its block, whatever the numbering and the kinds of the
blocks are. -/
theorem exists_stepped (hg : g.Sound) (hs : Sized g s) (hle : s.pending ≤ g.blockCount)
    (hpos : s.pending ≠ 0) (hstep : Liveness.step g s = .ok s') :
    ∃ b blk w, Stepped g s b blk w s' := by
  obtain ⟨b, hb⟩ := Nat.exists_eq_succ_of_ne_zero hpos
  rw [step_eq hb] at hstep
  have hbn : b < g.blockCount := by omega
  obtain ⟨blk, w, control, hblk, hw, rfl, hlive, hrewrites, hcontrol, hpending⟩ :=
    walkBlock_eq_ok hstep
  have hwalked := Walked.run hg (s := { s with pending := b }) (fun {i op} hi hop hjump ↦
    (hg.ends hi hop (Operation.isTerminator_of_isJump hjump)).1)
    (by rw [List.reverse_reverse, List.append_nil])
    (walked_nil (b := b) (hs.withPending b) (Nat.le_of_lt hbn) _) hw
  have hold : w.state.controlOf b = s.controlOf b := by
    rw [Liveness.controlOf, Liveness.controlOf, hwalked.control_eq]
  rw [hold] at hpending
  refine ⟨b, blk, w, hb, hblk, hwalked, hlive, hrewrites, fun c ↦ ?_, ?_, ?_⟩
  · rw [hwalked.control_eq] at hcontrol
    exact controlOf_set (by rw [hs.control]; exact hbn) hcontrol
  · rw [hcontrol, Array.size_setIfInBounds, hwalked.control_eq]
  · refine hpending.imp (fun ⟨hloop, hne, heq⟩ ↦ ⟨hloop, ?_, heq⟩) fun ⟨hsame, heq⟩ ↦
      ⟨fun hloop ↦ ?_, heq⟩
    · rwa [settle_of_isLoop hloop] at hne
    · rw [hsame hloop, settle_of_isLoop hloop]

namespace Stepped

variable {blk : Block} {w : Walk} (h : Stepped g s b blk w s')

include h

theorem isLive_eq (i : OpIndex) : s'.isLive i = w.state.isLive i := by rw [isLive, isLive, h.live]

theorem pending_le : w.state.pending ≤ s'.pending := by
  rcases h.pending with ⟨-, -, heq⟩ | ⟨-, heq⟩
  · exact heq ▸ Nat.le_max_left _ _
  · exact Nat.le_of_eq heq.symm

theorem pending_bound (hg : g.Sound) : s'.pending ≤ g.blockCount := by
  rcases h.pending with ⟨-, -, heq⟩ | ⟨-, heq⟩
  · exact heq ▸ Nat.max_le.mpr ⟨h.walked.pending_bound,
      latestPredecessor_lt hg (Graph.lt_blockCount h.block)⟩
  · exact heq ▸ h.walked.pending_bound

private theorem sized (hs : Sized g s) : Sized g s' where
  live := by rw [h.live, h.walked.sized.live]
  control := by rw [h.control_size, hs.control]
  tidy := by rw [h.rewrites]; exact h.walked.sized.tidy
  capacity := by rw [h.rewrites]; exact h.walked.sized.capacity

/-- There is less to do behind a step: it rewinds because a loop is settled or because an operation
has become live, or else there is one block less to walk. -/
theorem effort_lt (hg : g.Sound) : effort g s' < effort g s := by
  have hle := h.pending_bound hg
  have hdead : s'.deadCount = w.state.deadCount := by
    rw [deadCount, deadCount, h.live]
    simp only [h.isLive_eq]
  have hdead_le : s'.deadCount ≤ s.deadCount :=
    hdead ▸ deadCount_le h.walked.size_eq h.walked.mono
  have hself : blk.isLoop = true → s'.controlOf b = .stays := fun hloop ↦ by
    rw [h.controlOf, if_pos rfl, settle_of_isLoop hloop]
  have hmono : ∀ c, g.blocks[c]?.any Block.isLoop = true → s'.controlOf c ≠ .stays →
      s.controlOf c ≠ .stays := by
    intro c hloop hnew
    by_cases hcb : c = b
    · subst hcb
      rw [h.block, Option.any_some] at hloop
      exact absurd (hself hloop) hnew
    · rwa [h.controlOf, if_neg hcb] at hnew
  have hunsettled := unsettled_le hmono
  -- either a loop was settled, or the walk went back for an operation, or a block is done
  rcases h.pending with ⟨hloop, hne, -⟩ | ⟨-, heq⟩
  · exact Liveness.effort_lt hle (Nat.add_lt_add_of_le_of_lt hdead_le
      (unsettled_lt hmono h.block hloop hne (hself hloop)))
  · rcases h.walked.progress with hback | hlt
    · have hmul := Nat.mul_le_mul_right (g.blockCount + 1) (Nat.add_le_add hdead_le hunsettled)
      rw [effort, effort, heq, hback, h.pending_eq]
      exact Nat.lt_succ_of_le (Nat.add_le_add_right hmul b)
    · exact Liveness.effort_lt hle (Nat.add_lt_add_of_lt_of_le (hdead ▸ hlt) hunsettled)

section

variable (hg : g.Sound) (hfit : g.Fit) (hord : g.InReversePostorder)

include hg hfit hord

/-- The blocks behind the pending ones see the same control states as before. -/
theorem controlAfter_eq {c : BlockIndex} (hc : s'.pending ≤ c) :
    controlAfter g s' c = controlAfter g s c := by
  refine controlAfter_congr fun t ht ↦ ?_
  rw [h.controlOf t]
  split
  · rename_i htb
    subst htb
    have hloop := isLoop_of_arc hfit hord h.block ht
      (Nat.le_trans h.walked.pending_le (Nat.le_trans h.pending_le hc))
    rcases h.pending with ⟨-, -, heq⟩ | ⟨hsame, -⟩
    · have hlt : c < s'.pending := by
        rw [heq]
        exact Nat.lt_of_lt_of_le (Nat.lt_succ_of_le (le_latestPredecessor hg ht))
          (Nat.le_max_right _ _)
      exact absurd hc (Nat.not_le.mpr hlt)
    · rw [hsame hloop, settle_of_isLoop hloop]
  · rfl

private theorem stable_self (hle : s'.pending ≤ b) : Stable g s' b := by
  have hwb : w.state.pending ≤ b := Nat.le_trans h.pending_le hle
  constructor
  · rw [h.controlAfter_eq hg hfit hord hle]
    refine (h.walked.agrees hwb).congr (fun i hl ↦ (h.isLive_eq i).trans hl)
      (fun i _ ↦ h.isLive_eq i) fun i _ ↦ ?_
    rw [h.rewrites]
  · intro blk' hblk'
    cases h.block.symm.trans hblk'
    rw [h.controlAfter_eq hg hfit hord hle, h.controlOf b, if_pos rfl, h.walked.control hwb,
      h.walked.livePhi hwb, any_congr_of_mem fun i _ ↦ h.isLive_eq i,
      any_isLivePhi_congr fun i _ ↦ h.isLive_eq i]

private theorem stable_of_lt {c : BlockIndex} (hold : Stable g s c) (hbc : b < c)
    (hc : s'.pending ≤ c) : Stable g s' c := by
  have hwc : w.state.pending ≤ c := Nat.le_trans h.pending_le hc
  refine hold.congr (fun i hl ↦ (h.isLive_eq i).trans (h.walked.mono i hl))
    (fun i hi ↦ ?_) (fun i hi ↦ ?_) (h.controlAfter_eq hg hfit hord hc) ?_
  · -- an operation that becomes live here rewinds the walk
    rw [h.isLive_eq]
    cases hlive : s.isLive i with
    | true => exact h.walked.mono i hlive
    | false =>
      rw [← Bool.not_eq_true]
      intro hnew
      exact absurd (h.walked.rewound ((hg.mem_span_iff i c).mp hi) hbc hlive hnew)
        (Nat.not_lt.mpr hwc)
  · rw [h.rewrites]
    exact h.walked.rewrites_eq i fun hmem ↦ Nat.ne_of_lt hbc (hg.span_disjoint hmem hi)
  · rw [h.controlOf c, if_neg (Nat.ne_of_gt hbc)]

end

end Stepped

/-- One step keeps what is not pending stable, and there is less to do behind it. -/
theorem Underway.step (hg : g.Sound) (hfit : g.Fit) (hord : g.InReversePostorder)
    (h : Underway g s) (hpos : s.pending ≠ 0) (hstep : Liveness.step g s = .ok s') :
    Underway g s' ∧ effort g s' < effort g s := by
  obtain ⟨b, blk, w, hst⟩ := exists_stepped hg h.sized h.pending_le hpos hstep
  refine ⟨⟨hst.sized h.sized, hst.pending_bound hg, fun {c} hc hcn ↦ ?_⟩, hst.effort_lt hg⟩
  have hbc : b ≤ c := Nat.le_trans hst.walked.pending_le (Nat.le_trans hst.pending_le hc)
  rcases Nat.eq_or_lt_of_le hbc with rfl | hbc
  · exact hst.stable_self hg hfit hord hc
  · exact hst.stable_of_lt hg hfit hord (h.stable (hst.pending_eq ▸ hbc) hcn) hbc hc

/-! ## The whole analysis

The invariant holds at the start, where all blocks are pending, and when none is, every block is
stable. -/

theorem underway_start (g : Graph) : Underway g (start g) where
  sized := ⟨Array.size_replicate, Array.size_replicate, IndexMap.tidy_empty _,
    Array.size_replicate⟩
  pending_le := Nat.le_refl _
  stable hle hlt := absurd hlt (Nat.not_lt.mpr hle)

theorem effort_start_le (g : Graph) : effort g (start g) ≤ stepBound g := by
  have hdead : (start g).deadCount ≤ g.opCount := by
    refine Nat.le_trans (Finset.card_filter_le _ _) ?_
    rw [Finset.card_range]
    exact Nat.le_of_eq Array.size_replicate
  have hloops : unsettled g (start g) ≤ g.blockCount := by
    refine Nat.le_trans (Finset.card_filter_le _ _) ?_
    rw [Finset.card_range]
  have hmul := Nat.mul_le_mul_right (g.blockCount + 1) (Nat.add_le_add hdead hloops)
  have hbound : stepBound g
      = (g.opCount + g.blockCount) * (g.blockCount + 1) + (g.blockCount + 1) := by
    rw [stepBound, Nat.mul_comm, Nat.succ_mul]
  have hpending : (start g).pending = g.blockCount := rfl
  rw [hbound, effort, hpending]
  omega

private theorem run_underway (hg : g.Sound) (hfit : g.Fit) (hord : g.InReversePostorder) :
    ∀ {steps : Nat} {s : Liveness}, Underway g s → effort g s ≤ steps →
      (run g steps s).breach? = none →
      Underway g (run g steps s).state ∧ (run g steps s).state.pending = 0 := by
  intro steps
  induction steps with
  | zero =>
    intro s h heffort _
    exact ⟨h, Nat.eq_zero_of_le_zero (Nat.le_trans (Nat.le_add_left _ _) heffort)⟩
  | succ steps ih =>
    intro s h heffort hbreach
    rw [run] at hbreach ⊢
    by_cases hpos : s.pending = 0
    · rw [if_pos hpos]
      exact ⟨h, hpos⟩
    · rw [if_neg hpos] at hbreach ⊢
      cases hstep : step g s with
      | error e =>
        rw [hstep] at hbreach
        cases hbreach
      | ok s' =>
        rw [hstep] at hbreach
        -- the effort goes down with each step, so that the steps are enough
        obtain ⟨h', hlt⟩ := h.step hg hfit hord hpos hstep
        exact ih h' (by omega) hbreach

/-- The analysis ends, and every block is stable under what it has found. -/
theorem stable_of_liveness (hg : g.Sound) (hfit : g.Fit) (hord : g.InReversePostorder)
    (h : g.liveness = .ok s) : Sized g s ∧ ∀ {b}, b < g.blockCount → Stable g s b := by
  rw [Graph.liveness, Graph.livenessOutcome] at h
  obtain ⟨hunder, hpending⟩ := run_underway hg hfit hord (underway_start g) (effort_start_le g) (by
    split at h
    · rename_i hrun
      rw [hrun]
    · cases h)
  split at h
  · rename_i hrun
    rw [hrun] at hunder hpending
    cases h
    exact ⟨hunder.sized, fun hb ↦ hunder.stable (by rw [hpending]; exact Nat.zero_le _) hb⟩
  · cases h

end Liveness

end Flowgraph
