import Flowgraph.Proofs.Rebuild.Draft

/-!
# Drafting a whole graph

Every operation of a block that is being filled can be treated: a rewritten jump, a phi that is
forwarded, copied or copied with its inputs to come, any other live operation, and a dead one. So
can every block, and so can the phis that wait at the end.

## What is to be done

`Handled` keeps the list of the operations that are still to be treated. It is the operations of
the source in the order of the blocks, from the current one on, and it says two things. Inputs that
are defined first are not on it, so that their values are there. And the copy never has more
operations than were treated, so that there is room for the next one.
-/

namespace Flowgraph

open Liveness (Survives exits HasLivePhi)

variable {g : Graph} {s : Liveness} {n : BlockIndex} {a a' : Assembler}

/-! ## Renamed operations -/

namespace Operation.RenamedTo

variable {β : BlockIndex → Option BlockIndex} {ω : OpIndex → Option OpIndex} {op op' : Operation}
  (h : RenamedTo β ω op op')

include h

private theorem exists_branch {t' f' : BlockIndex} {hint : Hint}
    (hbranch : op'.action = .branch t' f' hint) :
    ∃ t f, op.action = .branch t f hint := by
  rcases h.action_cases with
    ⟨t, c, -, -, haction'⟩ | ⟨t, f, c, d, hint', haction, -, -, haction'⟩ | ⟨heq, -⟩
  · cases hbranch.symm.trans haction'
  · cases hbranch.symm.trans haction'
    exact ⟨t, f, haction⟩
  · exact ⟨t', f', heq.symm.trans hbranch⟩

theorem map_successors : op.successors.map β = op'.successors.map some := by
  have hall := h.successors
  rw [← List.forall₂_eq_eq_eq, List.forall₂_map_left_iff, List.forall₂_map_right_iff]
  exact hall

end Operation.RenamedTo

namespace Draft

variable {missing : List (OpIndex × OpIndex)} (hA : Liveness.Analysed g s)

include hA

private theorem exists_rename (h : Draft g s n missing a) (op : Operation)
    (hts : ∀ t ∈ op.successors, Survives g s t) :
    ∃ action a', Yields (op.action.rename Build.mapBlock) a action a' ∧
      Draft g s n missing a' ∧ Widens a a' ∧ op.action.rename a'.copy? = some action := by
  obtain ⟨action, inputs⟩ := op
  cases action with
  | goto t =>
    obtain ⟨c, a₁, hy, h₁, hc, hw⟩ := h.exists_mapBlock hA (hts t (by simp [Operation.successors]))
    refine ⟨.goto c, a₁, ?_, h₁, hw, by simp only [Action.rename, hc]; rfl⟩
    simp only [Action.rename, yields_bind, yields_pure]
    exact ⟨c, a₁, hy, rfl, rfl⟩
  | branch t f hint =>
    obtain ⟨c, a₁, hy₁, h₁, hc, hw₁⟩ :=
      h.exists_mapBlock hA (hts t (by simp [Operation.successors]))
    obtain ⟨d, a₂, hy₂, h₂, hd, hw₂⟩ :=
      h₁.exists_mapBlock hA (hts f (by simp [Operation.successors]))
    refine ⟨.branch c d hint, a₂, ?_, h₂, hw₁.trans hw₂, ?_⟩
    · simp only [Action.rename, yields_bind, yields_pure]
      exact ⟨c, a₁, hy₁, d, a₂, hy₂, rfl, rfl⟩
    · simp only [Action.rename, hw₂.copy hc, hd]
      rfl
  | _ => exact ⟨_, a, yields_pure.mpr ⟨rfl, rfl⟩, h, .refl a, rfl⟩

omit hA in
private theorem exists_mapInputs (h : Charted g s a) : ∀ {l : List OpIndex},
    (∀ j ∈ l, j < g.opCount ∧ (a.value? j).isSome = true) →
    ∃ l', Yields (l.mapM Build.mapInput) a l' a ∧
      List.Forall₂ (fun j v ↦ a.value? j = some v) l l'
  | [], _ => ⟨[], by rw [List.mapM_nil, yields_pure]; exact ⟨rfl, rfl⟩, .nil⟩
  | j :: l, hl => by
    rw [List.forall_mem_cons] at hl
    obtain ⟨v, hv⟩ := Option.isSome_iff_exists.mp hl.1.2
    obtain ⟨l', hl', hall⟩ := exists_mapInputs h hl.2
    have hget : a.opMap[j]? = some (some v) := by
      have hlt : j < a.opMap.size := by rw [h.opMap_size]; exact hl.1.1
      rw [Assembler.value?, Array.getElem?_eq_getElem hlt, Option.join_some] at hv
      rw [Array.getElem?_eq_getElem hlt, hv]
    have hinput : Yields (Build.mapInput j) a v a := by
      simp only [Build.mapInput, Build.mapValue, yields_bind, yields_get, Build.yields_ofExcept]
      exact ⟨some v, a, ⟨a, a, ⟨rfl, rfl⟩, Graph.lookup_eq_ok.mpr hget, rfl⟩,
        yields_pure.mpr ⟨rfl, rfl⟩⟩
    refine ⟨v :: l', ?_, .cons hv hall⟩
    rw [List.mapM_cons]
    simp only [yields_bind, yields_pure]
    exact ⟨v, a, hinput, l', a, hl', rfl, rfl⟩

end Draft

/-! ## One operation

The cases of copying an operation, and in each of them that no step breaks off: a rewritten jump, a
forwarded phi, a phi of a merge, a phi of a loop, any other live operation, and a dead one. -/

/-- What treating one operation of block `n` leaves, if `v` stands for it from now on and the copy
`c` of the block is closed by it or not. -/
structure Treated (g : Graph) (s : Liveness) (n c : BlockIndex) (a : Assembler)
    (v : Option OpIndex) (ends : Bool) (a' : Assembler) : Prop where
  draft : Draft g s (n + 1) a'.waiting.toList a'
  copy : a'.copy? n = some c
  value_eq : a'.value? = a.value?
  bound_eq : a'.output.bound = if ends then none else some c
  opCount_le : a'.output.opCount ≤ a.output.opCount + 1
  value_lt : ∀ w, v = some w → w < a'.output.opCount

/-- An operation that was appended stands for the one that was treated. -/
theorem Treated.of_append {a₁ : Assembler} {c : BlockIndex} {op : Operation}
    {waiting : Array (OpIndex × OpIndex)} (hw : Draft.Widens a a₁) (hc : a.copy? n = some c)
    (h : Draft g s (n + 1) waiting.toList
      { a₁ with output := a₁.output.appended c op, waiting }) :
    Treated g s n c a (some a₁.output.opCount) op.isTerminator
      { a₁ with output := a₁.output.appended c op, waiting } where
  draft := h
  copy := hw.copy hc
  value_eq := hw.value_eq
  bound_eq := rfl
  opCount_le := Nat.le_of_eq (Graph.appended_opCount.trans (by rw [hw.opCount_eq]))
  value_lt w heq := by
    cases heq
    exact Nat.lt_of_lt_of_eq (Nat.lt_succ_self _) Graph.appended_opCount.symm

theorem Build.emit_of_ok {op : Operation} {output : Graph}
    (hadd : a.output.addOperation op = .ok output) :
    Yields (emit op) a a.output.opCount { a with output } := by
  simp only [emit, yields_bind, yields_get, yields_ofExcept, yields_set, yields_pure]
  exact ⟨a, a, ⟨rfl, rfl⟩, output, a, ⟨hadd, rfl⟩, ⟨⟩, _, rfl, rfl, rfl⟩

private theorem Build.copyOperation_of_phi {i w : OpIndex} {op : Operation}
    (hop : a.source.ops[i]? = some op) (hphi : op.isPhi = true)
    {inputs : List (Option OpIndex)} {complete : Bool} {a₁ : Assembler}
    (hin : Yields (phiInputs i) a (inputs, complete) a)
    (hemit : Yields (emit { op with inputs := inputs.map (·.getD noHandle) }) a w a₁) :
    Yields (copyOperation i) a (some w)
      (if complete then a₁ else { a₁ with waiting := a₁.waiting.push (w, i) }) := by
  simp only [copyOperation, yields_bind, yields_get, yields_ofExcept]
  refine ⟨a, a, ⟨rfl, rfl⟩, op, a, ⟨Graph.op_eq_ok.mpr hop, rfl⟩, ?_⟩
  rw [if_pos hphi]
  simp only [yields_bind]
  refine ⟨_, a, hin, w, a₁, hemit, ?_⟩
  cases complete with
  | true => exact yields_pure.mpr ⟨rfl, rfl⟩
  | false =>
    simp only [Bool.not_false, if_true, yields_bind, yields_modify, yields_pure]
    exact ⟨⟨⟩, _, rfl, trivial, rfl⟩

private theorem Build.copyOperation_of_other {i w : OpIndex} {op op' : Operation}
    (hop : a.source.ops[i]? = some op) (hphi : op.isPhi = false) {a₁ : Assembler}
    (hren : Yields (op.rename mapBlock mapInput) a op' a₁) (hemit : Yields (emit op') a₁ w a') :
    Yields (copyOperation i) a (some w) a' := by
  simp only [copyOperation, yields_bind, yields_get, yields_ofExcept]
  refine ⟨a, a, ⟨rfl, rfl⟩, op, a, ⟨Graph.op_eq_ok.mpr hop, rfl⟩, ?_⟩
  rw [if_neg (by simp [hphi])]
  simp only [yields_bind, yields_pure]
  exact ⟨op', a₁, hren, w, a', hemit, rfl, rfl⟩

private theorem Build.dropDead_of_cases {next : OpIndex → Build (Option OpIndex)} {i : OpIndex}
    {op : Operation} {v : Option OpIndex} (hop : a.source.ops[i]? = some op)
    (h : (∃ t c w a₁, s.rewrite? i op = some t ∧ Yields (mapBlock t) a c a₁ ∧
        Yields (emit (.goto c)) a₁ w a' ∧ v = some w) ∨
      s.rewrite? i op = none ∧
        ((s.live[i]? = some true ∧ Yields (next i) a v a') ∨
          s.live[i]? = some false ∧ op.isTerminator = false ∧ v = none ∧ a' = a)) :
    Yields ((Reducer.dropDead s.live s.rewrites).operation next i) a v a' := by
  simp only [Reducer.dropDead, yields_bind, yields_get, yields_ofExcept]
  refine ⟨a, a, ⟨rfl, rfl⟩, op, a, ⟨Graph.op_eq_ok.mpr hop, rfl⟩, ?_⟩
  rcases h with ⟨t, c, w, a₁, ht, hmap, hemit, rfl⟩ | ⟨hnone, hcases⟩
  · rw [Liveness.rewrite?] at ht
    simp only [ht, yields_bind, yields_pure]
    exact ⟨c, a₁, hmap, w, a', hemit, rfl, rfl⟩
  · rw [Liveness.rewrite?] at hnone
    simp only [hnone, yields_bind, yields_ofExcept]
    rcases hcases with ⟨hlive, hnext⟩ | ⟨hdead, hend, rfl, rfl⟩
    · exact ⟨true, a, ⟨Graph.lookup_eq_ok.mpr hlive, rfl⟩, hnext⟩
    · refine ⟨false, a', ⟨Graph.lookup_eq_ok.mpr hdead, rfl⟩, ?_⟩
      simp only [hend, Bool.false_eq_true, if_false]
      exact yields_pure.mpr ⟨rfl, rfl⟩

private theorem Build.forwardPhis_cases {i : OpIndex} {op : Operation}
    (hop : a.source.ops[i]? = some op) (hphi : op.isPhi = true) {inputs : List (Option OpIndex)}
    {complete : Bool} (hin : Yields (phiInputs i) a (inputs, complete) a) :
    (∃ w, some w ∈ inputs ∧
        ∀ next, Yields (Reducer.forwardPhis.operation next i) a (some w) a) ∨
      ∀ next v a', Yields (next i) a v a' →
        Yields (Reducer.forwardPhis.operation next i) a v a' := by
  simp only [yields_forwardPhis hop, hphi, Bool.not_true, Bool.false_eq_true, if_false, yields_bind]
  by_cases hall : ∃ w rest, inputs = some w :: rest ∧ complete = true ∧
      rest.all (· = some w) = true
  · obtain ⟨w, rest, rfl, rfl, hrest⟩ := hall
    refine Or.inl ⟨w, by simp, fun next ↦ ⟨_, a, hin, ?_⟩⟩
    simp only [hrest, if_true]
    exact yields_pure.mpr ⟨rfl, rfl⟩
  · refine Or.inr fun next v a' hnext ↦ ⟨_, a, hin, ?_⟩
    split
    · rename_i w rest heq
      cases heq
      rw [if_neg fun hrest ↦ hall ⟨w, rest, rfl, rfl, hrest⟩]
      exact hnext
    · exact hnext

section

variable (hA : Liveness.Analysed g s) (h : Draft g s (n + 1) a.waiting.toList a)
  {c : BlockIndex} (hc : a.copy? n = some c) (hbound : a.output.bound = some c)
  (hroom : a.output.opCount < noHandle) {i : OpIndex} {op : Operation}
  (hi : i ∈ (g.span n).toList) (hop : g.ops[i]? = some op)

include hA h hc hbound hroom hi hop

private theorem exists_treated_rewritten {t : BlockIndex} (ht : s.rewrite? i op = some t) :
    ∃ d w a₁ a', Yields (Build.mapBlock t) a d a₁ ∧ Yields (Build.emit (.goto d)) a₁ w a' ∧
      Treated g s n c a (some w) op.isTerminator a' := by
  have hsome : (s.rewrite? i op).isSome = true := by rw [ht]; rfl
  have hend := Operation.isTerminator_of_isJump (Liveness.isJump_of_rewrite hsome)
  have hexits : exits g s n = [t] := by rw [hA.exits_of_terminator hi hop hend, ht]
  have hsurv : Survives g s t :=
    hA.survives_of_exit (h.survives hc) (by rw [hexits]; exact List.mem_singleton_self t)
  obtain ⟨d, a₁, hmap, h₁, hd, hw⟩ := h.exists_mapBlock hA hsurv
  rw [← hw.waiting_eq] at h₁
  have hnext : Draft.Next g s n c (.goto d) a₁.waiting a₁ := {
    exits := fun _ ↦ by rw [hexits, List.map_singleton, hd]; rfl
    values := Or.inr nofun
    condition := nofun
    phi := nofun
    kept := fun e he ↦ he
    added := Or.inl }
  obtain ⟨hadd, h'⟩ := h₁.append (hw.copy hc) hnext (hw.bound_eq.trans hbound) hA
    (by rw [hw.opCount_eq]; exact hroom)
  rw [hend]
  exact ⟨d, _, a₁, _, hmap, Build.emit_of_ok hadd, .of_append hw hc h'⟩

private theorem exists_copied_phi (hphi : op.isPhi = true) (hlive : s.isLive i = true)
    (hdone : ∀ {blk}, g.blocks[n]? = some blk → (op.isPhi && blk.isLoop) = false →
      ∀ j ∈ op.inputs, (a.value? j).isSome = true) :
    ∃ w a', Yields (Build.copyOperation i) a (some w) a' ∧
      Treated g s n c a (some w) op.isTerminator a' := by
  obtain ⟨blk, hblk⟩ := Graph.exists_block (Graph.lt_blockCount_of_mem_span hi)
  obtain ⟨inputs, hin, hlen, hvalues⟩ := h.exists_phiInputs hA hi hop hphi hlive hblk hc
  have hkind : HasLivePhi g s n := ⟨i, op, hi, hop, hphi, hlive⟩
  have hends : op.isTerminator ≠ true := by
    rw [Operation.isTerminator_of_isPhi hphi]
    exact Bool.false_ne_true
  have hcond : ∀ {t f hint}, op.action = .branch t f hint →
      (inputs.map (·.getD noHandle)).length = 1 := fun haction ↦ by
    rw [Operation.isPhi, haction] at hphi
    cases hphi
  have hsource : a.source.ops[i]? = some op := by rw [h.source_eq, hop]
  cases hloop : blk.isLoop with
  -- in a loop the inputs may come from behind: a place is held for each, and the phi is noted
  | true =>
    have hnext : Draft.Next g s n c { op with inputs := inputs.map (·.getD noHandle) }
        (a.waiting.push (a.output.opCount, i)) a := {
      exits := fun hend ↦ absurd hend hends
      values := Or.inl ⟨i, by simp⟩
      condition := hcond
      phi := fun _ ↦ ⟨hkind, fun _ _ ↦ ⟨i, by simp⟩, Or.inl ⟨i, by simp⟩⟩
      kept := fun e he ↦ by rw [Array.toList_push]; exact List.mem_append_left _ he
      added := fun {v j} he ↦ by
        rw [Array.toList_push, List.mem_append, List.mem_singleton] at he
        rcases he with he | heq
        · exact Or.inl he
        · cases heq
          exact Or.inr ⟨rfl, hphi, op, hi, hop, hphi, hlive⟩ }
    obtain ⟨hadd, h'⟩ := h.append hc hnext hbound hA hroom
    rw [hloop] at hin
    exact ⟨_, _, Build.copyOperation_of_phi hsource hphi hin (Build.emit_of_ok hadd),
      .of_append (.refl a) hc h'⟩
  | false =>
    have hsome := hdone hblk (by rw [hloop, Bool.and_false])
    have hnext : Draft.Next g s n c { op with inputs := inputs.map (·.getD noHandle) }
        a.waiting a := {
      exits := fun hend ↦ absurd hend hends
      values := Or.inr fun v hv ↦ by
        obtain ⟨x, hx, rfl⟩ := List.mem_map.mp hv
        obtain ⟨j, hj, rfl⟩ := hvalues x hx
        obtain ⟨w, hw⟩ := Option.isSome_iff_exists.mp (hsome j hj)
        rw [hw, Option.getD_some]
        exact h.value_lt hw
      condition := hcond
      phi := fun _ ↦ by
        refine ⟨hkind, fun hblk' hl ↦ ?_, Or.inr (by rw [List.length_map, hlen])⟩
        cases hblk.symm.trans hblk'
        rw [hloop] at hl
        cases hl
      kept := fun e he ↦ he
      added := Or.inl }
    obtain ⟨hadd, h'⟩ := h.append hc hnext hbound hA hroom
    rw [hloop] at hin
    exact ⟨_, _, Build.copyOperation_of_phi hsource hphi hin (Build.emit_of_ok hadd),
      .of_append (.refl a) hc h'⟩

private theorem exists_copied_other (hphi : op.isPhi = false) (hnone : s.rewrite? i op = none)
    (hdone : ∀ {blk}, g.blocks[n]? = some blk → (op.isPhi && blk.isLoop) = false →
      ∀ j ∈ op.inputs, (a.value? j).isSome = true) :
    ∃ w a', Yields (Build.copyOperation i) a (some w) a' ∧
      Treated g s n c a (some w) op.isTerminator a' := by
  obtain ⟨blk, hblk⟩ := Graph.exists_block (Graph.lt_blockCount_of_mem_span hi)
  have hexits : op.isTerminator = true → exits g s n = op.successors := fun hend ↦ by
    rw [hA.exits_of_terminator hi hop hend, hnone]
  obtain ⟨action, a₁, haction, h₁, hw, hren⟩ := h.exists_rename hA op fun t ht ↦
    hA.survives_of_exit (h.survives hc)
      (by rw [hexits (Operation.isTerminator_of_mem_successors ht)]; exact ht)
  have hrefers := hA.fit.wellFormed.referring hop
  obtain ⟨inputs, hinputs, hall⟩ := Draft.exists_mapInputs h₁.toCharted (l := op.inputs)
    fun j hj ↦ ⟨hrefers.value_lt j hj, by
      rw [hw.value_eq]
      exact hdone hblk (by rw [hphi, Bool.false_and]) j hj⟩
  have hto : op.RenamedTo a₁.copy? a₁.value? ⟨action, inputs⟩ := ⟨hren, hall⟩
  obtain ⟨hends, hphi', -⟩ := hto.sort_eq
  rw [← hw.waiting_eq] at h₁
  have hnext : Draft.Next g s n c ⟨action, inputs⟩ a₁.waiting a₁ := {
    exits := fun hend ↦ by rw [hexits (hends.symm.trans hend), hto.map_successors]
    values := Or.inr fun v hv ↦ by
      obtain ⟨k, hk, rfl⟩ := List.mem_iff_getElem.mp hv
      exact h₁.value_lt (hall.get (hall.length_eq ▸ hk) hk)
    condition := fun hbranch ↦ by
      obtain ⟨t, f, hact⟩ := hto.exists_branch hbranch
      exact hall.length_eq.symm.trans (hrefers.condition hact)
    phi := fun hp ↦ by
      rw [hphi', hphi] at hp
      cases hp
    kept := fun e he ↦ he
    added := Or.inl }
  obtain ⟨hadd, h'⟩ := h₁.append (hw.copy hc) hnext (hw.bound_eq.trans hbound) hA
    (by rw [hw.opCount_eq]; exact hroom)
  have hsource : a.source.ops[i]? = some op := by rw [h.source_eq, hop]
  rw [← hends]
  refine ⟨_, _, Build.copyOperation_of_other hsource hphi ?_ (Build.emit_of_ok hadd),
    .of_append hw hc h'⟩
  simp only [Operation.rename, yields_bind, yields_pure]
  exact ⟨action, a₁, haction, inputs, a₁, hinputs, rfl, rfl⟩

private theorem exists_treated_live (forwardPhis : Bool) (hnone : s.rewrite? i op = none)
    (hlive : s.isLive i = true)
    (hdone : ∀ {blk}, g.blocks[n]? = some blk → (op.isPhi && blk.isLoop) = false →
      ∀ j ∈ op.inputs, (a.value? j).isSome = true) :
    ∃ w a', Yields (Build.reduceOperation (if forwardPhis then [.forwardPhis] else []) i) a
        (some w) a' ∧ Treated g s n c a (some w) op.isTerminator a' := by
  have hsource : a.source.ops[i]? = some op := by rw [h.source_eq, hop]
  cases hphi : op.isPhi with
  | false =>
    obtain ⟨w, a', hcopy, htreated⟩ :=
      exists_copied_other hA h hc hbound hroom hi hop hphi hnone hdone
    cases forwardPhis with
    | false => exact ⟨w, a', hcopy, htreated⟩
    | true =>
      refine ⟨w, a', (Build.yields_forwardPhis hsource).mpr ?_, htreated⟩
      rw [if_pos (by rw [hphi]; rfl)]
      exact hcopy
  | true =>
    obtain ⟨w, a', hcopy, htreated⟩ :=
      exists_copied_phi hA h hc hbound hroom hi hop hphi hlive hdone
    cases forwardPhis with
    | false => exact ⟨w, a', hcopy, htreated⟩
    | true =>
      obtain ⟨blk, hblk⟩ := Graph.exists_block (Graph.lt_blockCount_of_mem_span hi)
      obtain ⟨inputs, hin, -, hvalues⟩ := h.exists_phiInputs hA hi hop hphi hlive hblk hc
      rcases Build.forwardPhis_cases hsource hphi hin with ⟨v, hv, hforward⟩ | hnext
      · -- the value that a phi is forwarded to is there already
        refine ⟨v, a, hforward _, h, hc, rfl, ?_, Nat.le_succ _, fun w heq ↦ ?_⟩
        · rw [Operation.isTerminator_of_isPhi hphi, hbound]
          rfl
        · obtain ⟨j, -, hj⟩ := hvalues _ hv
          exact h.value_lt (hj.symm.trans heq)
      · exact ⟨w, a', hnext _ _ _ hcopy, htreated⟩

private theorem exists_treated (forwardPhis : Bool)
    (hdone : s.rewrite? i op = none → s.isLive i = true → ∀ {blk}, g.blocks[n]? = some blk →
      (op.isPhi && blk.isLoop) = false → ∀ j ∈ op.inputs, (a.value? j).isSome = true) :
    ∃ v a', Yields (Build.reduceOperation (Graph.eliminators s forwardPhis) i) a v a' ∧
      Treated g s n c a v op.isTerminator a' ∧ (s.isLive i = true → v.isSome = true) := by
  have hsource : a.source.ops[i]? = some op := by rw [h.source_eq, hop]
  cases hrewrite : s.rewrite? i op with
  | some t =>
    obtain ⟨d, w, a₁, a', hmap, hemit, htreated⟩ :=
      exists_treated_rewritten hA h hc hbound hroom hi hop hrewrite
    exact ⟨some w, a', Build.dropDead_of_cases hsource
      (Or.inl ⟨t, d, w, a₁, hrewrite, hmap, hemit, rfl⟩), htreated, fun _ ↦ rfl⟩
  | none =>
    cases hlive : s.isLive i with
    | true =>
      obtain ⟨w, a', hy, htreated⟩ := exists_treated_live hA h hc hbound hroom hi hop forwardPhis
        hrewrite hlive (hdone hrewrite hlive)
      exact ⟨some w, a', Build.dropDead_of_cases hsource
        (Or.inr ⟨hrewrite, Or.inl ⟨Liveness.isLive_eq_true.mp hlive, hy⟩⟩), htreated, fun _ ↦ rfl⟩
    | false =>
      have hend : op.isTerminator = false := by
        by_contra hend
        rw [Bool.not_eq_false] at hend
        cases hjump : op.isJump with
        | true =>
          rcases hA.jump_cases hi hop hjump with ⟨hl, -⟩ | ⟨t, ht, -⟩
          · rw [hlive] at hl
            cases hl
          · rw [Liveness.rewrite?, hjump, if_pos rfl, ht] at hrewrite
            cases hrewrite
        | false =>
          have hreq : op.isRequired = true := by
            by_contra hreq
            rw [(Liveness.successors_ne_nil hend (by simpa using hreq)).1] at hjump
            cases hjump
          rw [hA.isLive_of_required hop hreq] at hlive
          cases hlive
      have hdead : s.live[i]? = some false := by
        have hlt : i < s.live.size := by rw [hA.sized.live]; exact Graph.lt_opCount hop
        rw [Liveness.isLive, Array.getElem?_eq_getElem hlt, Option.getD_some] at hlive
        rw [Array.getElem?_eq_getElem hlt, hlive]
      refine ⟨none, a, Build.dropDead_of_cases hsource
        (Or.inr ⟨hrewrite, Or.inr ⟨hdead, hend, rfl, rfl⟩⟩),
        ⟨h, hc, rfl, ?_, Nat.le_succ _, by simp⟩,
        by simp⟩
      rw [hend, hbound]
      rfl

end

/-! ## Blocks

The operations of a block are treated in order. What is still to be done gets shorter from the
front, so that inputs defined earlier are never on that list. -/

def Graph.opsFrom (g : Graph) (n : BlockIndex) : List OpIndex :=
  g.opsOf (List.range' n (g.blockCount - n))

private theorem Graph.opsFrom_eq (hn : n < g.blockCount) :
    g.opsFrom n = (g.span n).toList ++ g.opsFrom (n + 1) := by
  have hk : g.blockCount - n = (g.blockCount - (n + 1)) + 1 := by lia
  rw [opsFrom, hk, List.range'_succ, opsOf, List.flatMap_cons]
  rfl

theorem Graph.mem_opsFrom {i : OpIndex} : i ∈ g.opsFrom n ↔ ∃ b, n ≤ b ∧ i ∈ (g.span b).toList := by
  rw [opsFrom, opsOf, List.mem_flatMap]
  constructor
  · rintro ⟨b, hb, hi⟩
    exact ⟨b, (List.mem_range'_1.mp hb).1, hi⟩
  · rintro ⟨b, hle, hi⟩
    have hlt := lt_blockCount_of_mem_span hi
    exact ⟨b, List.mem_range'_1.mpr ⟨hle, by lia⟩, hi⟩

private theorem isTerminator_iff (hA : Liveness.Analysed g s) {pre post : List OpIndex}
    {i : OpIndex} {op : Operation} (hspan : (g.span n).toList = pre ++ i :: post)
    (hop : g.ops[i]? = some op) : op.isTerminator = true ↔ post = [] := by
  have hi : i ∈ (g.span n).toList := by rw [hspan]; simp
  have hnd := (g.span n).nodup_toList
  have hlast : g.terminator? n = (pre ++ i :: post).getLast? := by
    rw [Graph.terminator?, Span.last?_eq_getLast?, hspan]
  constructor
  · intro hend
    rw [(hA.sound.ends hi hop hend).1] at hlast
    rcases List.eq_nil_or_concat post with hnil | ⟨l, x, rfl⟩
    · exact hnil
    · rw [List.concat_eq_append, ← List.cons_append, ← List.append_assoc,
        List.getLast?_concat] at hlast
      rw [hspan, List.concat_eq_append, ← Option.some.inj hlast] at hnd
      exact absurd (List.nodup_cons.mp (List.nodup_append.mp hnd).2.1).1 (by simp)
  · rintro rfl
    obtain ⟨j, op', hj, -, hop', hend⟩ :=
      hA.determined.exists_terminator (Graph.lt_blockCount_of_mem_span hi)
    rw [hj, List.getLast?_concat, Option.some.injEq] at hlast
    rw [hlast, hop] at hop'
    cases hop'
    exact hend

private theorem not_mem_todo (hA : Liveness.Analysed g s) {pre post : List OpIndex} {i j : OpIndex}
    {d : BlockIndex} (hspan : (g.span n).toList = pre ++ i :: post) (hj : j ∈ (g.span d).toList)
    (hfirst : d < n ∨ d = n ∧ j < i) : j ∉ i :: (post ++ g.opsFrom (n + 1)) := by
  have hsorted : (pre ++ i :: post).Pairwise (· < ·) := by
    rw [← hspan, Span.toList]
    exact List.pairwise_lt_range'
  have hhere : j ∈ i :: post → False := fun hmem ↦ by
    have hdn := hA.sound.span_disjoint hj (by rw [hspan]; exact List.mem_append_right _ hmem)
    rcases hfirst with hlt | ⟨-, hlt⟩
    · exact absurd hdn (Nat.ne_of_lt hlt)
    · rcases List.mem_cons.mp hmem with rfl | hmem
      · exact Nat.lt_irrefl _ hlt
      · have hij := (List.pairwise_cons.mp (List.pairwise_append.mp hsorted).2.1).1 j hmem
        exact Nat.lt_asymm hlt hij
  intro hmem
  rw [← List.cons_append, List.mem_append] at hmem
  rcases hmem with hmem | hmem
  · exact hhere hmem
  · obtain ⟨b, hle, hjb⟩ := Graph.mem_opsFrom.mp hmem
    have hdb := hA.sound.span_disjoint hj hjb
    lia

private theorem Handled.of_treated {todo : List OpIndex} {i : OpIndex} {v : Option OpIndex}
    {c : BlockIndex} {ends : Bool} (h : Handled g s (i :: todo) a)
    (ht : Treated g s n c a v ends a') (hi : i < g.opCount)
    (hv : s.isLive i = true → v.isSome = true) : Handled g s todo (a'.withValue i v) where
  value {j} hlive hj := by
    rw [Assembler.value?_withValue (by rw [ht.draft.opMap_size]; exact hi)]
    split
    · rename_i hji
      exact hv (hji ▸ hlive)
    · rename_i hji
      rw [ht.value_eq]
      exact h.value hlive (by simp [hji, hj])
  room := by
    have hroom := h.room
    have hle := ht.opCount_le
    rw [List.length_cons] at hroom
    change a'.output.opCount + todo.length ≤ g.opCount
    omega

section

variable (hA : Liveness.Analysed g s) (hready : Liveness.Ready g s) (forwardPhis : Bool)

include hA hready

private theorem exists_copyOp (h : Draft g s (n + 1) a.waiting.toList a) {c : BlockIndex}
    (hc : a.copy? n = some c) (hbound : a.output.bound = some c) {pre post : List OpIndex}
    {i : OpIndex} (hspan : (g.span n).toList = pre ++ i :: post)
    (hh : Handled g s (i :: (post ++ g.opsFrom (n + 1))) a) :
    ∃ a', Yields (Build.copyOp (Graph.eliminators s forwardPhis) i) a ⟨⟩ a' ∧
      Draft g s (n + 1) a'.waiting.toList a' ∧ a'.copy? n = some c ∧
      a'.output.bound = (if post = [] then none else some c) ∧
      Handled g s (post ++ g.opsFrom (n + 1)) a' := by
  have hi : i ∈ (g.span n).toList := by rw [hspan]; simp
  obtain ⟨op, hop⟩ := Graph.exists_op (hA.sound.lt_of_mem_span hi)
  have hroom : a.output.opCount < noHandle := by
    have hroom := hh.room
    have hle := hA.sound.ops_le
    rw [List.length_cons] at hroom
    omega
  -- an input is defined in front, so that it was treated before
  obtain ⟨v, a', hy, ht, hv⟩ := exists_treated hA h hc hbound hroom hi hop forwardPhis
    fun hnone hlive {blk} hblk hphi j hj ↦ by
      have hjlt := (hA.fit.wellFormed.referring hop).value_lt j hj
      obtain ⟨d, hd⟩ := hA.sound.exists_owner hjlt
      exact hh.value (hA.isLive_of_input hop hlive hj)
        (not_mem_todo hA hspan hd (hready hi hop hblk hnone hlive hphi j hj d hd))
  have hlt := Graph.lt_opCount hop
  refine ⟨a'.withValue i v, ?_, ht.draft.withValue hlt ht.value_lt, ht.copy, ?_,
    hh.of_treated ht hlt hv⟩
  · simp only [Build.copyOp, yields_bind, yields_modify]
    exact ⟨v, a', hy, rfl⟩
  · change a'.output.bound = _
    rw [ht.bound_eq]
    simp only [isTerminator_iff hA hspan hop]

private theorem exists_copyOps {c : BlockIndex} : ∀ {rest : List OpIndex} (pre : List OpIndex)
    {a : Assembler}, (g.span n).toList = pre ++ rest → Draft g s (n + 1) a.waiting.toList a →
    a.copy? n = some c → a.output.bound = (if rest = [] then none else some c) →
    Handled g s (rest ++ g.opsFrom (n + 1)) a →
    ∃ a', Yields (rest.forM (Build.copyOp (Graph.eliminators s forwardPhis))) a ⟨⟩ a' ∧
      Draft g s (n + 1) a'.waiting.toList a' ∧ a'.output.bound = none ∧
      Handled g s (g.opsFrom (n + 1)) a' := by
  intro rest
  induction rest with
  | nil =>
    intro pre a _ h _ hbound hh
    exact ⟨a, yields_forM_nil.mpr rfl, h, hbound, hh⟩
  | cons i post ih =>
    intro pre a hspan h hc hbound hh
    obtain ⟨a₁, hy₁, h₁, hc₁, hbound₁, hh₁⟩ :=
      exists_copyOp hA hready forwardPhis h hc hbound hspan hh
    obtain ⟨a', hy, h', hbound', hh'⟩ :=
      ih _ (hspan.trans (List.append_cons _ _ _)) h₁ hc₁ hbound₁ hh₁
    exact ⟨a', yields_forM_cons.mpr ⟨a₁, hy₁, hy⟩, h', hbound', hh'⟩

end

/-- The copy between two blocks. -/
structure Drafted (g : Graph) (s : Liveness) (n : BlockIndex) (a : Assembler) : Prop where
  draft : Draft g s n a.waiting.toList a
  bound_eq : a.output.bound = none
  handled : Handled g s (g.opsFrom n) a

section

variable (hA : Liveness.Analysed g s) (hready : Liveness.Ready g s) (forwardPhis : Bool)

include hA hready

private theorem Drafted.exists_copyBlock (h : Drafted g s n a) (hn : n < g.blockCount) :
    ∃ a', Yields (Build.copyBlock (Graph.eliminators s forwardPhis) n) a ⟨⟩ a' ∧
      Drafted g s (n + 1) a' := by
  have hwanted : Yields (Build.reduceBlock (Graph.eliminators s forwardPhis) n) a
      (a.copy? n).isSome a := by
    have hw : Yields (Build.wanted n) a (a.copy? n).isSome a := by
      simp only [Build.wanted, yields_bind, yields_get, yields_pure]
      exact ⟨a, a, ⟨rfl, rfl⟩, rfl, rfl⟩
    cases forwardPhis <;> exact hw
  have hhandled := h.handled
  rw [Graph.opsFrom_eq hn] at hhandled
  cases hc : a.copy? n with
  | none =>
    rw [hc] at hwanted
    refine ⟨a, ?_, h.draft.skip h.bound_eq hc, h.bound_eq,
      fun {i} hlive hi ↦ hhandled.value hlive ?_, ?_⟩
    · rw [Build.copyBlock, yields_bind]
      exact ⟨_, a, hwanted, yields_pure.mpr ⟨rfl, rfl⟩⟩
    · -- the block would have a copy if it held something live
      rw [List.mem_append, not_or]
      refine ⟨fun hspan ↦ ?_, hi⟩
      obtain ⟨c, hc'⟩ := h.draft.copied
        (hA.survives_of_solid hn (hA.solid_of_isLive hspan hlive)) (Or.inr ⟨rfl, h.bound_eq⟩)
      rw [hc] at hc'
      cases hc'
    · have hroom := hhandled.room
      rw [List.length_append] at hroom
      omega
  | some c =>
    rw [hc] at hwanted
    obtain ⟨hbind, hbegun⟩ := h.draft.begun h.bound_eq hc
    have hne : (g.span n).toList ≠ [] := by
      obtain ⟨i, -, -, hi, -⟩ := hA.determined.exists_terminator hn
      exact List.ne_nil_of_mem hi
    obtain ⟨a', hy, h', hbound, hh⟩ := exists_copyOps hA hready forwardPhis (c := c) []
      (a := a.begun n c) (List.nil_append _).symm hbegun hc (by rw [if_neg hne]; rfl)
      ⟨hhandled.value, hhandled.room⟩
    obtain ⟨c', a₁, hmap, -, hc', -⟩ := h.draft.exists_mapBlock hA (h.draft.survives hc)
    have hsame : c' = c ∧ a₁ = a := by
      rcases Build.yields_mapBlock hmap with ⟨hcopy, rfl⟩ | ⟨hnone, -⟩
      · exact ⟨Option.some.inj (hcopy.symm.trans hc), rfl⟩
      · rw [hc] at hnone
        cases hnone
    obtain ⟨rfl, rfl⟩ := hsame
    rw [← h.draft.source_eq] at hy
    exact ⟨a', Build.copyBlock_of_yields hwanted hmap hbind hy hbound, h', hbound, hh⟩

private theorem Drafted.exists_copyBlocks : ∀ {k n : Nat} {a : Assembler}, Drafted g s n a →
    n + k ≤ g.blockCount →
    ∃ a', Yields ((List.range' n k).forM (Build.copyBlock (Graph.eliminators s forwardPhis))) a
      ⟨⟩ a' ∧ Drafted g s (n + k) a' := by
  intro k
  induction k with
  | zero => exact fun {n a} h _ ↦ ⟨a, yields_forM_nil.mpr rfl, h⟩
  | succ k ih =>
    intro n a h hle
    obtain ⟨a₁, hy₁, h₁⟩ := h.exists_copyBlock hA hready forwardPhis (by lia)
    obtain ⟨a', hy, h'⟩ := ih h₁ (by lia)
    refine ⟨a', by rw [List.range'_succ]; exact yields_forM_cons.mpr ⟨a₁, hy₁, hy⟩, ?_⟩
    rw [Nat.add_succ, ← Nat.succ_add]
    exact h'

end

/-! ## The phis that wait

When all blocks are done every live operation has its value, and the inputs of the phis are there.
The first copy is that of the entry. -/

private theorem Charted.setInputs (h : Charted g s a) {v : OpIndex} {inputs : List OpIndex}
    {output : Graph} (hset : a.output.setInputs v inputs = .ok output) :
    Charted g s { a with output } := by
  have halike := Graph.setInputs_alike hset
  have hblocks : output.blocks = a.output.blocks := by rw [Graph.setInputs_eq_ok hset]
  exact { h with
    sound := halike.sound h.sound
    origin_size := h.origin_size.trans halike.blockCount_eq.symm
    kind := fun hc hblk hblk' ↦ h.kind hc hblk (hblocks ▸ hblk')
    value_lt := fun hv ↦ by rw [halike.opCount_eq]; exact h.value_lt hv }

private theorem Draft.setInputs {missing : List (OpIndex × OpIndex)} {v i : OpIndex}
    (h : Draft g s n ((v, i) :: missing) a) {inputs : List OpIndex} {output : Graph}
    (hset : a.output.setInputs v inputs = .ok output)
    (hvalues : ∀ j ∈ inputs, j < a.output.opCount)
    (hlen : ∀ {c}, v ∈ (a.output.span c).toList →
      inputs.length = (a.output.predecessors c).length) :
    Draft g s n missing { a with output } := by
  have halike := Graph.setInputs_alike hset
  obtain ⟨-, -, -, opv, -, -, -, -, -, -, hopv, hphiv⟩ := h.waiting List.mem_cons_self
  -- each phi is noted once, and the others are missing their inputs as before
  have hrest : ∀ {w}, w ≠ v → (∃ j, (w, j) ∈ (v, i) :: missing) → ∃ j, (w, j) ∈ missing := by
    rintro w hw ⟨j, hj⟩
    rcases List.mem_cons.mp hj with heq | hj
    · cases heq
      exact absurd rfl hw
    · exact ⟨j, hj⟩
  exact {
    h.toCharted.setInputs hset with
    filled_eq := h.filled_eq
    bound := fun hb hc ↦ h.bound (halike.bound ▸ hb) hc
    closed := fun {b c} hc hlt hne ↦ by
      rw [halike.span_eq, halike.successors_eq]
      exact h.closed hc hlt (halike.bound ▸ hne)
    fresh := fun {b c} hc hle ↦ by
      rw [halike.span_eq]
      exact h.fresh hc hle
    values := fun {w op} hop ↦ by
      rw [halike.opCount_eq]
      rcases Graph.setInputs_op_cases hset hop with ⟨-, _, -, rfl⟩ | ⟨hw, hop⟩
      · exact Or.inr hvalues
      · exact (h.values hop).imp_left (hrest hw)
    condition := fun {w op t f hint} hop haction ↦ by
      rcases Graph.setInputs_op_cases hset hop with ⟨-, op₀, hop₀, rfl⟩ | ⟨-, hop⟩
      · cases hop₀.symm.trans hopv
        rw [Operation.isPhi, haction] at hphiv
        cases hphiv
      · exact h.condition hop haction
    phi := fun {b c w op blk} hc hw hop hphi hblk ↦ by
      rw [halike.span_eq] at hw
      rw [halike.predecessors_eq]
      rcases Graph.setInputs_op_cases hset hop with ⟨rfl, _, -, rfl⟩ | ⟨hne, hop⟩
      · obtain ⟨hlive, hwait, -⟩ := h.phi hc hw hopv hphiv hblk
        exact ⟨hlive, hwait, Or.inr (hlen hw)⟩
      · obtain ⟨hlive, hwait, hmatched⟩ := h.phi hc hw hop hphi hblk
        exact ⟨hlive, hwait, hmatched.imp_left (hrest hne)⟩
    waiting := fun {w j} hmem ↦ by
      obtain ⟨b, c, op, op', hj, hop, hphi, hlive, hc, hw, hop', hphi'⟩ :=
        h.waiting (List.mem_cons_of_mem _ hmem)
      have hw : w ∈ (output.span c).toList := by rwa [halike.span_eq]
      by_cases hwv : w = v
      · refine ⟨b, c, op, { op' with inputs }, hj, hop, hphi, hlive, hc, hw, ?_, hphi'⟩
        change output.ops[w]? = some { op' with inputs }
        rw [hwv, Graph.setInputs_op_self hset, ← hwv, hop', Option.map_some]
      · exact ⟨b, c, op, op', hj, hop, hphi, hlive, hc, hw,
          (Graph.setInputs_op_of_ne hset hwv).trans hop', hphi'⟩ }

section

variable (hA : Liveness.Analysed g s)

include hA

private theorem Draft.exists_completePhi {missing : List (OpIndex × OpIndex)} {v i : OpIndex}
    (h : Draft g s n ((v, i) :: missing) a) (hh : Handled g s [] a) :
    ∃ a', Yields (Build.completePhi v i) a ⟨⟩ a' ∧ Draft g s n missing a' ∧ Handled g s [] a' ∧
      a'.output.bound = a.output.bound := by
  obtain ⟨b, c, op, op', hi, hop, hphi, hlive, hc, hv, hop', -⟩ := h.waiting List.mem_cons_self
  obtain ⟨blk, hblk⟩ := Graph.exists_block (Graph.lt_blockCount_of_mem_span hi)
  obtain ⟨inputs, hin, hlen, hvalues⟩ := h.exists_phiInputs hA hi hop hphi hlive hblk hc
  have hsome : ∀ x ∈ inputs, ∃ w, x = some w ∧ w < a.output.opCount := by
    intro x hx
    obtain ⟨j, hj, rfl⟩ := hvalues x hx
    obtain ⟨w, hw⟩ := Option.isSome_iff_exists.mp
      (hh.value (hA.isLive_of_input hop hlive hj) List.not_mem_nil)
    exact ⟨w, hw, h.value_lt hw⟩
  have hset : ∃ output, a.output.setInputs v (inputs.map (·.getD noHandle)) = .ok output := by
    rw [Graph.setInputs, Graph.op_eq_ok.mpr hop', ok_bind]
    exact ⟨_, rfl⟩
  obtain ⟨output, hset⟩ := hset
  have halike := Graph.setInputs_alike hset
  refine ⟨{ a with output }, ?_, h.setInputs hset (fun w hw ↦ ?_) (fun hv' ↦ ?_),
    ⟨hh.value, ?_⟩, halike.bound⟩
  · simp only [Build.completePhi, yields_bind]
    refine ⟨_, a, hin, ?_⟩
    have hany : inputs.any Option.isNone = false := by
      rw [List.any_eq_false]
      intro x hx
      obtain ⟨w, rfl, -⟩ := hsome x hx
      simp
    rw [if_neg (by simp [hany])]
    simp only [yields_bind, yields_get, Build.yields_ofExcept, yields_set]
    exact ⟨a, a, ⟨rfl, rfl⟩, output, a, ⟨hset, rfl⟩, rfl⟩
  · obtain ⟨x, hx, rfl⟩ := List.mem_map.mp hw
    obtain ⟨w, rfl, hlt⟩ := hsome x hx
    exact hlt
  · rw [h.sound.span_disjoint hv' hv, List.length_map, hlen]
  · change output.opCount + _ ≤ _
    rw [halike.opCount_eq]
    exact hh.room

private theorem Draft.exists_completePhis : ∀ {missing : List (OpIndex × OpIndex)} {a : Assembler},
    Draft g s n missing a → Handled g s [] a →
    ∃ a', Yields (missing.forM fun e ↦ Build.completePhi e.1 e.2) a ⟨⟩ a' ∧ Draft g s n [] a' ∧
      a'.output.bound = a.output.bound := by
  intro missing
  induction missing with
  | nil => exact fun {a} h _ ↦ ⟨a, yields_forM_nil.mpr rfl, h, rfl⟩
  | cons e missing ih =>
    intro a h hh
    obtain ⟨a₁, hy₁, h₁, hh₁, hbound₁⟩ := h.exists_completePhi hA hh
    obtain ⟨a', hy, h', hbound⟩ := ih h₁ hh₁
    exact ⟨a', yields_forM_cons.mpr ⟨a₁, hy₁, hy⟩, h', hbound.trans hbound₁⟩

omit hA in
private theorem copy?_withCopy_start (hpos : 0 < g.blockCount) {blk : Block} {b c : BlockIndex} :
    ((Assembler.start g).withCopy 0 blk).copy? b = some c ↔ b = 0 ∧ c = 0 := by
  have hsize : 0 < (Assembler.start g).blockMap.size := by
    rw [Assembler.start, Array.size_replicate]
    exact hpos
  rw [Assembler.copy?_withCopy hsize, Assembler.copy?_start]
  split
  · rename_i hb
    simp only [hb, true_and, Option.some.injEq]
    exact eq_comm
  · simp_all

omit hA in
private theorem yields_mapBlock_start (hpos : 0 < g.blockCount) {blk : Block}
    (hblk : g.blocks[0]? = some blk) :
    Yields (Build.mapBlock 0) (.start g) 0 ((Assembler.start g).withCopy 0 blk) := by
  have hget : (Assembler.start g).blockMap[0]? = some none := by
    rw [Assembler.start, Array.getElem?_replicate, if_pos hpos]
  rw [Build.mapBlock, yields_bind]
  refine ⟨_, _, yields_get.mpr ⟨rfl, rfl⟩, ?_⟩
  rw [hget]
  simp only [yields_bind, Build.yields_ofExcept, yields_set, yields_pure]
  exact ⟨blk, _, ⟨Graph.block_eq_ok.mpr hblk, rfl⟩, _, _, ⟨rfl, rfl⟩, ⟨⟩, _, rfl, rfl, rfl⟩

private theorem exists_drafted_zero :
    ∃ c a, Yields (Build.mapBlock 0) (.start g) c a ∧ Drafted g s 0 a := by
  have hpos := hA.fit.wellFormed.pos
  obtain ⟨blk, hblk⟩ := Graph.exists_block hpos
  have hcopy : ∀ {b c}, ((Assembler.start g).withCopy 0 blk).copy? b = some c ↔
      b = 0 ∧ c = 0 := copy?_withCopy_start hpos
  have hadd : (Assembler.start g).output.addBlock blk.kind blk.deferred
      = .ok ((Assembler.start g).withCopy 0 blk).output := rfl
  have hspan : ∀ c, (((Assembler.start g).withCopy 0 blk).output.span c).toList = [] := fun c ↦ by
    have hpush := Graph.span_push_empty (Assembler.start g).output blk.kind blk.deferred c
    rw [Assembler.withCopy, hpush, Graph.toList_span_of_le (Nat.zero_le c)]
  have hops : ∀ v : Nat, ((Assembler.start g).withCopy 0 blk).output.ops[v]? = none := fun _ ↦ rfl
  refine ⟨0, (Assembler.start g).withCopy 0 blk, yields_mapBlock_start hpos hblk, ⟨{
    source_eq := rfl
    opMap_size := Array.size_replicate
    blockMap_size := Array.size_setIfInBounds.trans Array.size_replicate
    sound := (Graph.sound_empty g.name).addBlock hadd
    origin_size := rfl
    copy_iff := fun {b c} ↦ ?_
    survives := fun hc ↦ ?_
    kind := fun {b c blk₀ blk'} hc hblk₀ hblk' ↦ ?_
    entry := hcopy.mpr ⟨rfl, rfl⟩
    value_lt := fun {i v} hv ↦ by cases (Assembler.value?_start g i).symm.trans hv
    filled_eq := rfl
    bound := fun h ↦ by cases h
    closed := fun _ hlt ↦ absurd hlt (Nat.not_lt_zero _)
    fresh := fun _ _ ↦ hspan _
    values := fun h ↦ by cases h
    condition := fun h ↦ by cases h
    phi := by intros; contradiction
    waiting := fun h ↦ by cases h }, rfl, fun {i} hlive hi ↦ ?_, ?_⟩⟩
  · rw [hcopy]
    change _ ↔ (#[0] : Array BlockIndex)[c]? = some b
    cases c with
    | zero => simp [eq_comm]
    | succ c => simp
  · rw [(hcopy.mp hc).1]
    exact .entry
  · obtain ⟨rfl, rfl⟩ := hcopy.mp hc
    cases hblk.symm.trans hblk₀
    cases hblk'
    rfl
  · obtain ⟨b, hb⟩ := hA.sound.exists_owner (hA.sized.live ▸ Liveness.isLive_lt hlive)
    exact absurd (Graph.mem_opsFrom.mpr ⟨b, Nat.zero_le b, hb⟩) hi
  · change 0 + (g.opsOf (List.range' 0 (g.blockCount - 0))).length ≤ g.opCount
    rw [Nat.zero_add, Nat.sub_zero, ← List.range_eq_range',
      (Graph.opsOf_perm hA.sound (List.Perm.refl _)).length_eq, List.length_range]

variable (hready : Liveness.Ready g s) (forwardPhis : Bool)

include hready

/-- The whole copy. -/
theorem exists_draft : ∃ c a₁ a₂ a, Yields (Build.mapBlock 0) (.start g) c a₁ ∧
    Yields ((List.range g.blockCount).forM (Build.copyBlock (Graph.eliminators s forwardPhis)))
      a₁ ⟨⟩ a₂ ∧
    Yields (a₂.waiting.toList.forM fun e ↦ Build.completePhi e.1 e.2) a₂ ⟨⟩ a ∧
    Draft g s g.blockCount [] a ∧ a.output.bound = none := by
  obtain ⟨c, a₁, hmap, h₁⟩ := exists_drafted_zero hA
  obtain ⟨a₂, hcopy, h₂⟩ := h₁.exists_copyBlocks hA hready forwardPhis (k := g.blockCount)
    (Nat.le_of_eq (Nat.zero_add _))
  rw [Nat.zero_add] at h₂
  rw [← List.range_eq_range'] at hcopy
  have htodo : g.opsFrom g.blockCount = [] := by
    rw [Graph.opsFrom, Nat.sub_self, List.range'_zero]
    rfl
  obtain ⟨a, hphis, h, hbound⟩ := h₂.draft.exists_completePhis hA (htodo ▸ h₂.handled)
  exact ⟨c, a₁, a₂, a, hmap, hcopy, hphis, h, hbound.trans h₂.bound_eq⟩

end

end Flowgraph
