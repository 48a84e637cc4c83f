import Flowgraph.Proofs.Execution.Semantics
import Flowgraph.Proofs.Rebuild.Reduced

/-!
# Dropping dead operations does not change what a graph does

A run of a graph and a run of its reduced copy go side by side. They agree on the values of the
operations that were kept and on everything that was seen. One block of the copy stands for one
block of the graph, and where a jump was rewritten for all the blocks that it bypasses as well:
nothing in them is live, so nothing that the copy knows of changes there, and control comes out
where the copy jumps to directly.

## Other operations in their place

Where a copy reads another operation instead, the argument is the same, as long as that operation
has the value that is read. `Reads` says so of one block of the graph, whatever the copy does.

## Values that were never computed

Nothing makes sure that an operation runs before its value is used. Here such a value is the same
in the graph and in its copy, since it is the fixed one that terminators have too. It is for the
same reason that the jumps of bypassed blocks do no harm, even those that were copied.
-/

namespace Flowgraph

namespace Execution

universe u

variable {V : Type u} {I : Interpretation V} {g g' : Graph} {s : Liveness}
  {β : BlockIndex → Option BlockIndex} {ε : OpIndex → Option OpIndex} {ρ : OpIndex → OpIndex}
  {m m' : Memory V}

/-! ## Memories

Two memories agree if every operation that was kept has the value of its image and the same events
were seen. Operations that were not kept can have any value, which is what lets the graph run
through blocks that the copy has left out. -/

/-- The memories of a run and of the run of the reduced graph. -/
structure Agree (g : Graph) (I : Interpretation V) (ε : OpIndex → Option OpIndex)
    (m m' : Memory V) : Prop where
  history_eq : m'.history = m.history
  value_eq : ∀ {i v : OpIndex}, ε i = some v → m'.value v = m.value i
  terminator : ∀ {i : OpIndex} {op : Operation}, g.ops[i]? = some op → op.isTerminator = true →
    m.value i = I.dummy

theorem map_value_eq (h : Agree g I ε m m') {l l' : List OpIndex}
    (hl : List.Forall₂ (fun j v ↦ ε (ρ j) = some v) l l')
    (hread : ∀ j ∈ l, m.value (ρ j) = m.value j) : l'.map m'.value = l.map m.value := by
  induction hl with
  | nil => rfl
  | cons hv _ ih =>
    rw [List.forall_mem_cons] at hread
    rw [List.map_cons, List.map_cons, h.value_eq hv, hread.1, ih hread.2]

/-- The value of a kept operation is set on both sides. -/
theorem value_update (hR : Rebuilt g s g' β ε ρ) (h : Agree g I ε m m') {i v : OpIndex}
    (hv : ε i = some v) (x : V) {j w : OpIndex} (hw : ε j = some w) :
    Function.update m'.value v x w = Function.update m.value i x j := by
  by_cases hj : j = i
  · subst hj
    cases hv.symm.trans hw
    rw [Function.update_self, Function.update_self]
  · have hne : w ≠ v := fun heq ↦ hj (hR.op_inj hw (heq ▸ hv))
    rw [Function.update_of_ne hj, Function.update_of_ne hne, h.value_eq hw]

theorem terminator_update (h : Agree g I ε m m') {i : OpIndex} {op : Operation}
    (hop : g.ops[i]? = some op) {x : V} (hx : op.isTerminator = true → x = I.dummy) {j : OpIndex}
    {opj : Operation} (hopj : g.ops[j]? = some opj) (hend : opj.isTerminator = true) :
    Function.update m.value i x j = I.dummy := by
  by_cases hj : j = i
  · subst hj
    cases hop.symm.trans hopj
    rw [Function.update_self, hx hend]
  · rw [Function.update_of_ne hj, h.terminator hopj hend]

theorem Agree.set (hR : Rebuilt g s g' β ε ρ) (h : Agree g I ε m m') {i v : OpIndex}
    {op : Operation} (hop : g.ops[i]? = some op) (hv : ε i = some v) {x : V}
    (hx : op.isTerminator = true → x = I.dummy) : Agree g I ε (m.set i x) (m'.set v x) where
  history_eq := h.history_eq
  value_eq hw := value_update hR h hv x hw
  terminator := terminator_update h hop hx

private theorem Agree.observe (hR : Rebuilt g s g' β ε ρ) (h : Agree g I ε m m') {i v : OpIndex}
    {op : Operation} (hop : g.ops[i]? = some op) (hv : ε i = some v)
    (hend : op.isTerminator = false) (e : Event V) :
    Agree g I ε (m.observe I i e) (m'.observe I v e) where
  history_eq := by rw [Memory.observe, Memory.observe, h.history_eq]
  value_eq hw := by
    rw [Memory.observe, Memory.observe, h.history_eq]
    exact value_update hR h hv _ hw
  terminator := terminator_update h hop fun hend' ↦ by
    rw [hend] at hend'
    cases hend'

/-! ## Operations

An operation that was kept does the same as its image, because its inputs were kept as well. An
operation that was not kept is not seen from outside and changes the value of nothing that was kept.
-/

/-- An operation that is not required makes no event. -/
theorem perform_of_not_required {e : Entrance V} {i : OpIndex} {op : Operation}
    (hreq : op.isRequired = false) : ∃ x, perform I e m i op = m.set i x ∧
      (op.isTerminator = true → x = I.dummy) := by
  obtain ⟨action, inputs⟩ := op
  cases action with
  | other mnemonic required =>
    cases required with
    | true => cases hreq
    | false => exact ⟨_, rfl, nofun⟩
  | call callee => cases hreq
  | ret => cases hreq
  | goto t => exact ⟨_, rfl, fun _ ↦ rfl⟩
  | branch t f hint => exact ⟨_, rfl, fun _ ↦ rfl⟩
  | phi rep => exact ⟨_, rfl, nofun⟩
  | dead => exact ⟨_, rfl, nofun⟩
  | reserved c => exact ⟨_, rfl, nofun⟩

private theorem own_of_dead (hR : Rebuilt g s g' β ε ρ) {i : OpIndex} {op : Operation}
    (hop : g.ops[i]? = some op) (hdead : s.isLive i = false) (hend : op.isTerminator = false) :
    ε i = none := by
  rw [Option.eq_none_iff_forall_ne_some]
  intro v hv
  obtain ⟨op', -, himage⟩ := hR.image hv hop
  rcases himage.kept with hlive | hsome
  · rw [hdead] at hlive
    cases hlive
  · rw [Operation.isTerminator_of_isJump (Liveness.isJump_of_rewrite hsome)] at hend
    cases hend

/-- The copy takes no notice of an operation that it does not have. -/
theorem Agree.perform_unseen (h : Agree g I ε m m') {e : Entrance V} {i : OpIndex}
    {op : Operation} (hop : g.ops[i]? = some op) (hreq : op.isRequired = false)
    (hnone : op.isTerminator = false → ε i = none) : Agree g I ε (perform I e m i op) m' := by
  obtain ⟨x, hperform, hx⟩ := perform_of_not_required (m := m) (e := e) (i := i) hreq
  rw [hperform]
  cases hend : op.isTerminator with
  | true =>
    have hset : m.set i x = m := by
      rw [Memory.set, hx hend, ← h.terminator hop hend, Function.update_eq_self]
    rwa [hset]
  | false =>
    refine ⟨h.history_eq, fun {j v} hv ↦ ?_, terminator_update h hop hx⟩
    have hne : j ≠ i := by
      rintro rfl
      rw [hnone hend] at hv
      cases hv
    exact (h.value_eq hv).trans (Function.update_of_ne hne _ _).symm

theorem not_required_of_dead (hA : Liveness.Analysed g s) {i : OpIndex} {op : Operation}
    (hop : g.ops[i]? = some op) (hdead : s.isLive i = false) : op.isRequired = false := by
  rw [← Bool.not_eq_true]
  exact fun hreq ↦ by simp [hA.isLive_of_required hop hreq] at hdead

private theorem Agree.perform_renamed (hR : Rebuilt g s g' β ε ρ) (h : Agree g I ε m m')
    {e e' : Entrance V} {i v : OpIndex} {op op' : Operation} (hop : g.ops[i]? = some op)
    (hv : ε i = some v) (hphi : op.isPhi = false) (hren : op.RenamedTo β (fun j ↦ ε (ρ j)) op')
    (hread : ∀ j ∈ op.inputs, m.value (ρ j) = m.value j) :
    Agree g I ε (perform I e m i op) (perform I e' m' v op') := by
  have hargs := map_value_eq h hren.inputs hread
  have haction := hren.action
  obtain ⟨action, inputs⟩ := op
  obtain ⟨action', inputs'⟩ := op'
  simp only at hargs
  cases action with
  | other mnemonic required =>
    cases haction
    cases required with
    | true =>
      rw [perform, perform]
      simp only [hargs]
      exact h.observe hR hop hv rfl _
    | false =>
      rw [perform, perform]
      simp only [hargs]
      exact h.set hR hop hv fun h ↦ by cases h
  | call callee =>
    cases haction
    rw [perform, perform]
    simp only [hargs]
    exact h.observe hR hop hv rfl _
  | reserved c =>
    cases haction
    rw [perform, perform]
    simp only [hargs]
    exact h.set hR hop hv fun h ↦ by cases h
  | goto t =>
    obtain ⟨c, hc, heq⟩ := Option.bind_eq_some_iff.mp haction
    cases heq
    exact h.set hR hop hv fun _ ↦ rfl
  | branch t f hint =>
    obtain ⟨c, hc, heq⟩ := Option.bind_eq_some_iff.mp haction
    obtain ⟨d, hd, heq⟩ := Option.bind_eq_some_iff.mp heq
    cases heq
    exact h.set hR hop hv fun _ ↦ rfl
  | ret =>
    cases haction
    exact h.set hR hop hv fun _ ↦ rfl
  | dead =>
    cases haction
    exact h.set hR hop hv fun _ ↦ rfl
  | phi rep => cases hphi

private theorem Agree.perform_image (hR : Rebuilt g s g' β ε ρ) (h : Agree g I ε m m')
    {e e' : Entrance V} {i v : OpIndex} {op op' : Operation} (hop : g.ops[i]? = some op)
    (hv : ε i = some v) (himage : Image s β (fun j ↦ ε (ρ j)) i op op')
    (hread : op.isPhi = false → ∀ j ∈ op.inputs, m.value (ρ j) = m.value j)
    (hpick : op.isPhi = true → e.pick I op.inputs = e'.pick I op'.inputs) :
    Agree g I ε (perform I e m i op) (perform I e' m' v op') := by
  cases himage with
  | rewritten ht hc =>
    -- a rewritten branch and the jump in its place both do nothing but give the dummy value
    have hjump : op.isJump = true := Liveness.isJump_of_rewrite (by rw [ht]; rfl)
    obtain ⟨x, hperform, hx⟩ := perform_of_not_required (m := m) (e := e) (i := i)
      (Liveness.isRequired_of_isJump hjump)
    have hdummy := hx (Operation.isTerminator_of_isJump hjump)
    rw [hperform, hdummy]
    exact h.set hR hop hv fun _ ↦ rfl
  | phi hphi _ haction =>
    have hpick := hpick hphi
    obtain ⟨action, inputs⟩ := op
    obtain ⟨action', inputs'⟩ := op'
    cases haction
    cases action with
    | phi rep =>
      have hset := h.set hR hop hv (x := e.pick I inputs) fun h ↦ by cases h
      rw [perform, perform]
      simp only at hpick ⊢
      rwa [← hpick]
    | _ => cases hphi
  | renamed _ _ hphi hren => exact h.perform_renamed hR hop hv hphi hren (hread hphi)

/-! ## Blocks

The operations of a block are gone through on one side, and those that were kept on the other. Phis
take their inputs all at once from the slot that the block was entered through, which is why the
slots of an edge on both sides have to belong together. -/

theorem performAll_cons {e : Entrance V} {i : OpIndex} {op : Operation} (hop : g.ops[i]? = some op)
    (l : List OpIndex) :
    performAll g I e m (i :: l) = performAll g I e (perform I e m i op) l := by
  rw [performAll, List.foldl_cons, hop, performAll]

theorem performAll_concat {e : Entrance V} {i : OpIndex} {op : Operation}
    (hop : g.ops[i]? = some op) (l : List OpIndex) :
    performAll g I e m (l ++ [i]) = perform I e (performAll g I e m l) i op := by
  rw [performAll, List.foldl_append, List.foldl_cons, List.foldl_nil, hop, performAll]

/-- Wherever the value of an operation is read in the course of block `b`, the operation that stands
for it has that value too: by the other operations of the block, by its terminator in the end, and
by the phis behind it. -/
structure Reads (g : Graph) (I : Interpretation V) (ρ : OpIndex → OpIndex) (b : BlockIndex)
    (e : Entrance V) (m : Memory V) : Prop where
  value : ∀ {pre post : List OpIndex} {i j : OpIndex} {op : Operation},
    (g.span b).toList = pre ++ i :: post → g.ops[i]? = some op → op.isPhi = false →
    j ∈ op.inputs → (performAll g I e m pre).value (ρ j) = (performAll g I e m pre).value j
  leave : ∀ {i j : OpIndex} {op : Operation}, g.terminator? b = some i → g.ops[i]? = some op →
    op.isTerminator = true → j ∈ op.inputs → (performAll g I e m (g.span b).toList).value (ρ j) =
      (performAll g I e m (g.span b).toList).value j
  phi : ∀ {t : BlockIndex} {k : Nat} {i j : OpIndex} {op : Operation}, i ∈ (g.span t).toList →
    g.ops[i]? = some op → op.isPhi = true → (g.predecessors t)[k]? = some b →
    op.inputs[k]? = some j → (performAll g I e m (g.span b).toList).value (ρ j) =
      (performAll g I e m (g.span b).toList).value j

/-- A state in which the next block reads values that the operations that stand for them have
too. -/
def State.Faithful (g : Graph) (I : Interpretation V) (ρ : OpIndex → OpIndex) (σ : State V) :
    Prop :=
  ∀ b slot, σ.status = .running b slot → Reads g I ρ b ⟨slot, σ.memory.value⟩ σ.memory

private theorem State.faithful_id (σ : State V) : σ.Faithful g I id :=
  fun _ _ _ ↦ ⟨fun _ _ _ _ ↦ rfl, fun _ _ _ _ ↦ rfl, fun _ _ _ _ _ ↦ rfl⟩

private theorem Agree.block (hA : Liveness.Analysed g s) (hR : Rebuilt g s g' β ε ρ)
    {b c : BlockIndex} (hc : β b = some c) {e e' : Entrance V} (hread : Reads g I ρ b e m)
    (hpick : ∀ {i v op op'}, i ∈ (g.span b).toList → ε i = some v → g.ops[i]? = some op →
      op.isPhi = true → g'.ops[v]? = some op' → e.pick I op.inputs = e'.pick I op'.inputs) :
    ∀ {rest : List OpIndex} (pre : List OpIndex) {m' : Memory V},
      (g.span b).toList = pre ++ rest → Agree g I ε (performAll g I e m pre) m' →
      Agree g I ε (performAll g I e m (g.span b).toList)
        (performAll g' I e' m' (rest.filterMap ε)) := by
  intro rest
  induction rest with
  | nil =>
    intro pre m' hspan h
    rw [hspan, List.append_nil]
    exact h
  | cons i rest ih =>
    intro pre m' hspan h
    have hi : i ∈ (g.span b).toList := by rw [hspan]; simp
    obtain ⟨op, hop⟩ := Graph.exists_op (hA.sound.lt_of_mem_span hi)
    have hnext : ∀ {m'}, Agree g I ε (perform I e (performAll g I e m pre) i op) m' → _ :=
      fun h ↦ ih (pre ++ [i]) (hspan.trans (List.append_cons _ _ _))
        (by rwa [performAll_concat hop])
    cases hv : ε i with
    | none =>
      -- what is not copied is dead, or a phi whose value is that of another operation
      have hreq : op.isRequired = false := by
        cases hlive : s.isLive i with
        | false => exact not_required_of_dead hA hop hlive
        | true =>
          have hsome := hR.kept hc hi hop (Or.inl hlive)
          have hne : ρ i ≠ i := fun heq ↦ by simp [heq, hv] at hsome
          obtain ⟨_, _, _, op', hm⟩ := hR.merged hne
          cases hop.symm.trans hm.op_eq
          exact (Liveness.isRequired_of_isPhi hm.isPhi).1
      rw [List.filterMap_cons_none hv]
      exact hnext (h.perform_unseen hop hreq fun _ ↦ hv)
    | some v =>
      obtain ⟨op', hop', himage⟩ := hR.image hv hop
      rw [List.filterMap_cons_some hv, performAll_cons hop']
      exact hnext (h.perform_image hR hop hv himage
        (fun hphi j hj ↦ hread.value hspan hop hphi hj)
        fun hphi ↦ hpick hi hv hop hphi hop')

private theorem Agree.dead_block (hA : Liveness.Analysed g s) (hR : Rebuilt g s g' β ε ρ)
    {b : BlockIndex} (hdead : ∀ i ∈ (g.span b).toList, s.isLive i = false) {e : Entrance V} :
    ∀ {l : List OpIndex} {m : Memory V}, (∀ i ∈ l, i ∈ (g.span b).toList) → Agree g I ε m m' →
      Agree g I ε (performAll g I e m l) m' := by
  intro l
  induction l with
  | nil => exact fun _ h ↦ h
  | cons i l ih =>
    intro m hl h
    rw [List.forall_mem_cons] at hl
    obtain ⟨op, hop⟩ := Graph.exists_op (hA.sound.lt_of_mem_span hl.1)
    rw [performAll_cons hop]
    exact ih hl.2 (h.perform_unseen hop (not_required_of_dead hA hop (hdead i hl.1))
      fun hend ↦ own_of_dead hR hop (hdead i hl.1) hend)

/-- A jump takes one of the edges out of its block. -/
theorem leave_of_isJump {b : BlockIndex} {i : OpIndex} {op : Operation}
    (hi : g.terminator? b = some i) (hop : g.ops[i]? = some op) (hjump : op.isJump = true)
    (m : Memory V) :
    ∃ side, side < (g.successors b).length ∧ leave g I b m = follow g b side := by
  rw [Graph.successors_of_terminator hi hop]
  obtain ⟨action, inputs⟩ := op
  cases action with
  | goto t =>
    refine ⟨0, Nat.zero_lt_one, ?_⟩
    simp only [leave, hi, Option.bind_some, hop]
  | branch t f hint =>
    refine ⟨if I.truth (inputs.head?.elim I.dummy m.value) then 0 else 1, ?_, ?_⟩
    · split
      · exact Nat.zero_lt_two
      · exact Nat.one_lt_two
    · simp only [leave, hi, Option.bind_some, hop]
  | _ => cases hjump

theorem exists_follow {b : BlockIndex} {side : Nat} (h : side < (g.successors b).length) :
    ∃ t slot, g.Arc b t ∧ follow (V := V) g b side = .running t slot := by
  rw [follow, List.getElem?_eq_getElem h]
  exact ⟨_, _, List.getElem_mem h, rfl⟩

/-- A run that has entered a block that is not needed comes out where the analysis says. -/
private theorem Agree.bypass (hA : Liveness.Analysed g s) (hR : Rebuilt g s g' β ε ρ)
    {b t : BlockIndex} (hb : b < g.blockCount) (hpasses : s.controlOf b = .passes t)
    (slot : Option Nat) (h : Agree g I ε m m') :
    ∃ n slot' m₁, (step g I)^[n] ⟨.running b slot, m⟩ = ⟨.running t slot', m₁⟩ ∧
      Agree g I ε m₁ m' := by
  induction b, hb, hpasses using hA.determined.passes_induction generalizing slot m with
  | outlet => exact ⟨0, slot, m, rfl, h⟩
  | @through b _ hb _ hdead _ hnext =>
    obtain ⟨i, op, hterm, hi, hop, hend⟩ := hA.determined.exists_terminator hb
    obtain ⟨hjump, -⟩ := hA.determined.isJump_of_dead hdead hi hop hend
    obtain ⟨side, hside, hleave⟩ := leave_of_isJump (I := I) hterm hop hjump
      (performAll g I ⟨slot, m.value⟩ m (g.span b).toList)
    obtain ⟨c, slot₁, harc, hfollow⟩ := exists_follow (V := V) hside
    have hdone : Agree g I ε (performAll g I ⟨slot, m.value⟩ m (g.span b).toList) m' :=
      h.dead_block hA hR hdead fun i hi ↦ hi
    obtain ⟨-, -, -, ih⟩ := hnext c harc
    obtain ⟨n, slot', m₁, hrun, h₁⟩ := ih slot₁ hdone
    refine ⟨n + 1, slot', m₁, ?_, h₁⟩
    rw [Function.iterate_succ_apply, step_of_running, hleave, hfollow, hrun]

/-! ## The two runs

One step of the copy is matched by one or more steps of the graph. More are needed where a jump was
rewritten: control passes through blocks in which nothing is live, and it comes out where the copy
goes directly, at a block without phis that were kept. -/

/-- A state of a run and the state of the run of the reduced graph that stands for it. -/
inductive Simulates (g g' : Graph) (I : Interpretation V) (β : BlockIndex → Option BlockIndex)
    (ε : OpIndex → Option OpIndex) : State V → State V → Prop where
  | running {b c : BlockIndex} {slot slot' : Option Nat} {m m' : Memory V} : β b = some c →
    Agree g I ε m m' →
    (∀ {i v op op'}, i ∈ (g.span b).toList → ε i = some v → g.ops[i]? = some op →
      op.isPhi = true → g'.ops[v]? = some op' →
      Entrance.pick I ⟨slot, m.value⟩ op.inputs = Entrance.pick I ⟨slot', m'.value⟩ op'.inputs) →
    Simulates g g' I β ε ⟨.running b slot, m⟩ ⟨.running c slot', m'⟩
  | returned {values : List V} {m m' : Memory V} : m'.history = m.history →
    Simulates g g' I β ε ⟨.returned values, m⟩ ⟨.returned values, m'⟩

private theorem count_eq_of_forall₂ (hR : Rebuilt g s g' β ε ρ) {t c : BlockIndex}
    (ht : β t = some c) {l l' : List BlockIndex} (h : List.Forall₂ (fun b d ↦ β b = some d) l l') :
    l'.count c = l.count t := by
  induction h with
  | nil => rfl
  | @cons b d _ _ hd _ ih =>
    have hiff : d = c ↔ b = t :=
      ⟨fun heq ↦ hR.block_inj (heq ▸ hd) ht, fun heq ↦ Option.some.inj (hd.symm.trans (heq ▸ ht))⟩
    rw [List.count_cons, List.count_cons, ih]
    by_cases hbt : b = t <;> simp [hiff, hbt]

/-- An edge has a slot in the block that it leads to. -/
theorem exists_slot_of_side (hg : g.Sound) {b t : BlockIndex} {side : Nat}
    (h : (g.successors b)[side]? = some t) :
    ∃ q, (g.slots t b)[((g.successors b).take side).count t]? = some q := by
  have hmem : t ∈ (g.successors b).drop side := List.mem_of_head? (List.head?_drop.trans h)
  have hlt : ((g.successors b).take side).count t < (g.slots t b).length := by
    rw [Graph.length_slots hg]
    conv_rhs => rw [← List.take_append_drop side (g.successors b), List.count_append]
    exact Nat.lt_add_of_pos_right (List.count_pos_iff.mpr hmem)
  exact ⟨_, List.getElem?_eq_getElem hlt⟩

/-- Edges with the same number out of a block and its copy are entered through slots that hold the
same value for each phi. -/
private theorem simulates_follow (hR : Rebuilt g s g' β ε ρ) (h : Agree g I ε m m')
    {b c : BlockIndex} (hc : β b = some c)
    (hread : ∀ {t : BlockIndex} {k : Nat} {i j : OpIndex} {op : Operation},
      i ∈ (g.span t).toList → g.ops[i]? = some op → op.isPhi = true →
      (g.predecessors t)[k]? = some b → op.inputs[k]? = some j → m.value (ρ j) = m.value j)
    (hsucc : List.Forall₂ (fun t d ↦ β t = some d) (g.successors b) (g'.successors c))
    {side : Nat} (hside : side < (g.successors b).length) :
    Simulates g g' I β ε ⟨follow g b side, m⟩ ⟨follow g' c side, m'⟩ := by
  have hside' : side < (g'.successors c).length := hsucc.length_eq ▸ hside
  have ht := hsucc.get hside hside'
  have hget : (g.successors b)[side]? = some ((g.successors b).get ⟨side, hside⟩) :=
    List.getElem?_eq_getElem hside
  have hget' : (g'.successors c)[side]? = some ((g'.successors c).get ⟨side, hside'⟩) :=
    List.getElem?_eq_getElem hside'
  rw [follow, follow, hget, hget']
  generalize (g.successors b).get ⟨side, hside⟩ = t at ht hget
  generalize (g'.successors c).get ⟨side, hside'⟩ = d at ht hget'
  refine .running ht h fun {i v op op'} hi hv hop hphi hop' ↦ ?_
  have hcount : ((g'.successors c).take side).count d = ((g.successors b).take side).count t :=
    count_eq_of_forall₂ hR ht (List.forall₂_take side hsucc)
  obtain ⟨q, hq⟩ := exists_slot_of_side hR.sound hget'
  obtain ⟨k, j, w, hk, hj, hw, hw'⟩ := hR.phi hv hi hop hphi hop' ht hc hq
  rw [hcount] at hk
  have hj' := hread hi hop hphi (getElem?_positionsOf.mp hk).1 hj
  simp only [Entrance.pick, hq, hk, Option.bind_some, hj, hw', Option.elim_some, h.value_eq hw, hj']

private theorem simulates_of_rewrite (hA : Liveness.Analysed g s) (hR : Rebuilt g s g' β ε ρ)
    (h : Agree g I ε m m') {b c t d : BlockIndex} {i v : OpIndex} {op : Operation}
    (hi : g.terminator? b = some i) (hop : g.ops[i]? = some op) (ht : s.rewrite? i op = some t)
    (hd : β t = some d) (hv : g'.terminator? c = some v) (hop' : g'.ops[v]? = some (.goto d)) :
    ∃ n, Simulates g g' I β ε ((step g I)^[n] ⟨leave g I b m, m⟩) ⟨leave g' I c m', m'⟩ := by
  have hmem := Span.last?_mem hi
  have hjump : op.isJump = true := Liveness.isJump_of_rewrite (by rw [ht]; rfl)
  rw [Liveness.rewrite?, if_pos hjump] at ht
  obtain ⟨harcs, -, hphis⟩ := hA.target_of_rewrite hmem hop hjump ht
  obtain ⟨side, hside, hleave⟩ := leave_of_isJump (I := I) hi hop hjump m
  obtain ⟨t₀, slot, harc, hfollow⟩ := exists_follow (V := V) hside
  obtain ⟨n, slot₁, m₁, hrun, h₁⟩ :=
    h.bypass hA hR (hA.sound.target_lt harc) (harcs t₀ harc) slot
  have hleave' : leave g' I c m' = .running d (g'.slots d c)[0]? := by
    simp only [leave, hv, Option.bind_some, hop', Operation.goto, follow,
      Graph.successors_of_terminator hv hop', Operation.successors]
    rfl
  refine ⟨n, ?_⟩
  rw [hleave, hfollow, hrun, hleave']
  refine .running hd h₁ fun {j w opj opj'} hj hw hopj hphi _ ↦ ?_
  -- the block where control comes out has no phi that was kept
  obtain ⟨op'', -, himage⟩ := hR.image hw hopj
  have hdead := hphis j hj
  rw [Liveness.isLivePhi_eq hopj, hphi, himage.isLive_of_isPhi hphi] at hdead
  cases hdead

private theorem simulates_of_renamed (hR : Rebuilt g s g' β ε ρ) {e : Entrance V}
    {b c : BlockIndex} (hread : Reads g I ρ b e m)
    (h : Agree g I ε (performAll g I e m (g.span b).toList) m') {i v : OpIndex}
    {op op' : Operation} (hc : β b = some c) (hi : g.terminator? b = some i)
    (hop : g.ops[i]? = some op) (hend : op.isTerminator = true) (hv : g'.terminator? c = some v)
    (hop' : g'.ops[v]? = some op') (hren : op.RenamedTo β (fun j ↦ ε (ρ j)) op') :
    Simulates g g' I β ε
      ⟨leave g I b (performAll g I e m (g.span b).toList), performAll g I e m (g.span b).toList⟩
      ⟨leave g' I c m', m'⟩ := by
  have hsucc : List.Forall₂ (fun t d ↦ β t = some d) (g.successors b) (g'.successors c) := by
    rw [Graph.successors_of_terminator hi hop, Graph.successors_of_terminator hv hop']
    exact hren.successors
  have hfollow : ∀ {side}, side < op.successors.length →
      Simulates g g' I β ε
        ⟨follow g b side, performAll g I e m (g.span b).toList⟩ ⟨follow g' c side, m'⟩ :=
    fun hside ↦ simulates_follow hR h hc hread.phi hsucc
      (by rwa [Graph.successors_of_terminator hi hop])
  have haction := hren.action
  have hinputs := hren.inputs
  have hleave : ∀ j ∈ op.inputs, (performAll g I e m (g.span b).toList).value (ρ j) =
      (performAll g I e m (g.span b).toList).value j := fun j hj ↦ hread.leave hi hop hend hj
  generalize performAll g I e m (g.span b).toList = m₁ at h hfollow hleave ⊢
  have hvalues := map_value_eq h hinputs hleave
  obtain ⟨action, inputs⟩ := op
  obtain ⟨action', inputs'⟩ := op'
  cases action with
  | goto t =>
    obtain ⟨d, hd, heq⟩ := Option.bind_eq_some_iff.mp haction
    cases heq
    simp only [leave, hi, hv, Option.bind_some, hop, hop']
    exact hfollow Nat.zero_lt_one
  | branch t f hint =>
    obtain ⟨d, hd, heq⟩ := Option.bind_eq_some_iff.mp haction
    obtain ⟨d', hd', heq⟩ := Option.bind_eq_some_iff.mp heq
    cases heq
    have hcond : inputs'.head?.elim I.dummy m'.value = inputs.head?.elim I.dummy m₁.value := by
      cases hinputs with
      | nil => rfl
      | cons => exact (List.cons.inj hvalues).1
    simp only [leave, hi, hv, Option.bind_some, hop, hop', hcond]
    refine hfollow ?_
    split
    · exact Nat.zero_lt_two
    · exact Nat.one_lt_two
  | ret =>
    cases haction
    simp only [leave, hi, hv, Option.bind_some, hop, hop']
    simp only at hvalues
    rw [hvalues]
    exact .returned h.history_eq
  | _ => cases hend

/-- One block of the copy stands for one or more blocks of the graph. -/
private theorem Simulates.step (hA : Liveness.Analysed g s) (hR : Rebuilt g s g' β ε ρ)
    {σ σ' : State V} (hfaithful : σ.Faithful g I ρ) (h : Simulates g g' I β ε σ σ') :
    ∃ n, Simulates g g' I β ε ((step g I)^[n + 1] σ) (Execution.step g' I σ') := by
  cases h with
  | returned hhistory => exact ⟨0, .returned hhistory⟩
  | @running b c slot slot' m m' hc h hpick =>
    have hread := hfaithful b slot rfl
    have hdone := h.block hA hR hc hread hpick [] (List.nil_append _).symm
    rw [← hR.span hc] at hdone
    obtain ⟨i, op, hi, hmem, hop, hend⟩ := hA.determined.exists_terminator (hR.block_lt hc)
    have hkept := hR.kept hc hmem hop (kept_of_isTerminator hA hmem hop hend)
    rw [hR.root_of_isTerminator hop hend] at hkept
    obtain ⟨v, hv⟩ := Option.isSome_iff_exists.mp hkept
    obtain ⟨op', hop', himage⟩ := hR.image hv hop
    have hi' := hR.terminator_eq hc hi hv
    simp only [Function.iterate_succ_apply, step_of_running]
    cases himage with
    | rewritten ht hd => exact simulates_of_rewrite hA hR hdone hi hop ht hd hi' hop'
    | phi hphi =>
      rw [Operation.isPhi] at hphi
      rw [Operation.isTerminator] at hend
      split at hphi <;> simp_all
    | renamed _ _ _ hren =>
      exact ⟨0, simulates_of_renamed hR hread hdone hc hi hop hend hi' hop' hren⟩

private theorem simulates_start (hA : Liveness.Analysed g s) (hR : Rebuilt g s g' β ε ρ) :
    Simulates g g' I β ε (start I) (start I) := by
  refine .running hR.entry ⟨rfl, fun _ ↦ rfl, fun _ _ ↦ rfl⟩
    fun {i v op op'} hi _ hop hphi _ ↦ ?_
  obtain ⟨blk, hblk⟩ := Graph.exists_block hA.fit.wellFormed.pos
  have hkind := (hA.fit.wellFormed.joined hblk).entry_iff.mpr rfl
  rw [Graph.span_of_block hblk] at hi
  have hmatched := (hA.fit.wellFormed.matched hblk hi hop hphi).1
  simp [Block.isLoop, Block.isMerge, hkind] at hmatched

/-- Every state of a run of the copy stands for a state of the run of the graph that is at least as
late. -/
theorem exists_simulates_of_faithful (hA : Liveness.Analysed g s) (hR : Rebuilt g s g' β ε ρ)
    (hfaithful : ∀ n, (run g I n).Faithful g I ρ) :
    ∀ n, ∃ k, Simulates g g' I β ε (run g I (n + k)) (run g' I n) := by
  intro n
  induction n with
  | zero => exact ⟨0, simulates_start hA hR⟩
  | succ n ih =>
    obtain ⟨k, h⟩ := ih
    obtain ⟨j, h'⟩ := h.step hA hR (hfaithful _)
    refine ⟨k + j, ?_⟩
    rw [← run_add, ← run_succ] at h'
    have heq : n + 1 + (k + j) = n + k + (j + 1) := by omega
    rwa [heq]

theorem exists_simulates {ω : OpIndex → Option OpIndex} (hA : Liveness.Analysed g s)
    (hR : Reduced g s g' β ω) : ∀ n, ∃ k, Simulates g g' I β ω (run g I (n + k)) (run g' I n) :=
  exists_simulates_of_faithful hA hR.rebuilt fun _ ↦ State.faithful_id _

private theorem Simulates.history_eq {σ σ' : State V} (h : Simulates g g' I β ε σ σ') :
    σ'.memory.history = σ.memory.history := by
  cases h with
  | running _ hagree => exact hagree.history_eq
  | returned hhistory => exact hhistory

theorem Simulates.status_cases {σ σ' : State V} (h : Simulates g g' I β ε σ σ') :
    ((∃ b slot, σ.status = .running b slot) ∧ ∃ c slot, σ'.status = .running c slot) ∨
      ∃ values, σ.status = .returned values ∧ σ'.status = .returned values := by
  cases h with
  | running => exact Or.inl ⟨⟨_, _, rfl⟩, _, _, rfl⟩
  | returned => exact Or.inr ⟨_, rfl, rfl⟩

/-! ## What is seen from outside

Events, returned values and running for ever are what a simulation of single steps preserves. Each
is stated as an equivalence, so that neither graph can do more than the other. -/

/-- A run that has ended is in the same state later on. -/
theorem run_add_of_ended {n : Nat} (hn : ∀ b slot, (run g I n).status ≠ .running b slot) (k : Nat) :
    run g I (n + k) = run g I n :=
  (run_add g I _ _).trans (iterate_step_of_ended hn _)

section

variable (h : ∀ n, ∃ k, Simulates g g' I β ε (run g I (n + k)) (run g' I n))

include h

private theorem emits_iff_of_simulates (es : List (Event V)) : Emits g I es ↔ Emits g' I es := by
  constructor
  · rintro ⟨n, hn⟩
    obtain ⟨k, hsim⟩ := h n
    refine ⟨n, hn.trans ?_⟩
    rw [hsim.history_eq, run_add]
    exact iterate_step_history g I k _
  · rintro ⟨n, hn⟩
    obtain ⟨k, hsim⟩ := h n
    exact ⟨n + k, by rwa [hsim.history_eq] at hn⟩

private theorem returns_iff_of_simulates (values : List V) :
    Returns g I values ↔ Returns g' I values := by
  constructor
  · rintro ⟨n, hn⟩
    obtain ⟨k, hsim⟩ := h n
    rw [run_add_of_ended (by rw [hn]; nofun)] at hsim
    rcases hsim.status_cases with ⟨⟨b, slot, hrun⟩, -⟩ | ⟨values', hret, hret'⟩
    · rw [hn] at hrun
      cases hrun
    · rw [hn] at hret
      cases hret
      exact ⟨n, hret'⟩
  · rintro ⟨n, hn⟩
    obtain ⟨k, hsim⟩ := h n
    rcases hsim.status_cases with ⟨-, c, slot, hrun⟩ | ⟨values', hret, hret'⟩
    · rw [hn] at hrun
      cases hrun
    · rw [hn] at hret'
      cases hret'
      exact ⟨n + k, hret⟩

private theorem diverges_iff_of_simulates : Diverges g I ↔ Diverges g' I := by
  constructor
  · intro hdiv n
    obtain ⟨k, hsim⟩ := h n
    rcases hsim.status_cases with ⟨-, hrun⟩ | ⟨values, hret, -⟩
    · exact hrun
    · obtain ⟨b, slot, hrun⟩ := hdiv (n + k)
      rw [hret] at hrun
      cases hrun
  · intro hdiv n
    obtain ⟨k, hsim⟩ := h n
    rcases hsim.status_cases with ⟨⟨b, slot, hrun⟩, -⟩ | ⟨values, -, hret'⟩
    · by_contra hnot
      rw [run_add_of_ended fun b' slot' heq ↦ hnot ⟨b', slot', heq⟩] at hrun
      exact hnot ⟨b, slot, hrun⟩
    · obtain ⟨c, slot, hrun⟩ := hdiv n
      rw [hret'] at hrun
      cases hrun

/-- Two runs are seen to do the same if the states of one stand for states of the other. -/
theorem behaviour_of_simulates :
    (∀ es, Emits g I es ↔ Emits g' I es) ∧ (∀ values, Returns g I values ↔ Returns g' I values) ∧
      (Diverges g I ↔ Diverges g' I) :=
  ⟨emits_iff_of_simulates h, returns_iff_of_simulates h, diverges_iff_of_simulates h⟩

end

/-- Dropping dead operations is not seen from outside: for any meaning of the operations, the
events come in the same order with the same arguments, the same values are returned, and one run
goes on forever exactly if the other one does. -/
theorem behaviour_of_eliminate {g g' : Graph} {s : Liveness} (hbuilt : g.Built)
    (hfit : g.problems true = []) (h : g.eliminate false = .ok (g', s))
    (I : Interpretation V) :
    (∀ es, Emits g I es ↔ Emits g' I es) ∧ (∀ values, Returns g I values ↔ Returns g' I values) ∧
      (Diverges g I ↔ Diverges g' I) := by
  rw [Graph.eliminate] at h
  obtain ⟨s', hs, h⟩ := exists_of_bind_ok h
  obtain ⟨g'', hre, h⟩ := exists_of_bind_ok h
  cases h
  have hA := Liveness.analysed_of_liveness hbuilt hfit hs
  obtain ⟨β, ω, hR⟩ := exists_reduced hA hre
  exact behaviour_of_simulates (exists_simulates hA hR)

/-- A branch whose sides do nothing. -/
def sampleDiamond : Graph :=
  ((Sketch.mk [[1, 2], [3], [3], []] []).graph .empty).toOption.getD (.empty .empty)

theorem behaviour_sampleDiamond :
    ∃ g' s, sampleDiamond.eliminate false = .ok (g', s) ∧ g'.opCount = 2 ∧
      ∀ I : Interpretation Nat, Returns sampleDiamond I [] ↔ Returns g' I [] := by
  have hsome : (sampleDiamond.eliminate false).toOption.map (fun r ↦ r.1.opCount) = some 2 := by
    decide +kernel
  obtain ⟨⟨g', s⟩, hresult, hcount⟩ := Option.map_eq_some_iff.mp hsome
  have hok : sampleDiamond.eliminate false = .ok (g', s) := by
    cases hr : sampleDiamond.eliminate false with
    | error e =>
      rw [hr] at hresult
      cases hresult
    | ok r =>
      rw [hr] at hresult
      cases hresult
      rfl
  refine ⟨g', s, hok, hcount, fun I ↦ ?_⟩
  exact (behaviour_of_eliminate (Sketch.graph_built ⟨[[1, 2], [3], [3], []], []⟩ .empty rfl)
    (by decide +kernel) hok I).2.1 []

end Execution

end Flowgraph
