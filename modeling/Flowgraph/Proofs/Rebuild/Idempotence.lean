import Flowgraph.Proofs.Rebuild.Remnant

/-!
# Eliminating twice

Once the dead operations of a graph are eliminated, there is nothing left to eliminate: doing it
again gives the same graph.

## Why nothing dies later

The second analysis sees another graph, with fewer edges and with plain blocks that were merges, so
that its control states are not those of the first one. What can be compared are the sets of live
operations. An operation is carried over if it is live, is not rewritten, and has become something
that is live again. Where control passes through a block of the remaining graph, it passes through
its source as well, if the operations that are carried over are the live ones. So they are closed
under the rules of the source, and since the first analysis found the least closed set, everything
that it found live is carried over.

## Why no jump changes

A jump that was kept had targets that part, and they still part. A jump that was rewritten leads to
a block that holds something live, so that it can only be rewritten to what it is.
-/

namespace Flowgraph

open Liveness (Survives exits Thinned Outlet Settled)

/-- No operation takes a terminator as an input. -/
def Graph.TerminatorsUnused (g : Graph) : Prop :=
  ∀ op ∈ g.ops.toList, ∀ j ∈ op.inputs, ∀ op' ∈ g.ops[j]?, op'.isTerminator = false

instance (g : Graph) : Decidable g.TerminatorsUnused :=
  inferInstanceAs (Decidable (∀ op ∈ g.ops.toList, ∀ j ∈ op.inputs, ∀ op' ∈ g.ops[j]?,
    op'.isTerminator = false))

variable {g g' : Graph} {s s' : Liveness} {β : BlockIndex → Option BlockIndex}
  {ω : OpIndex → Option OpIndex}

/-! ## What is carried over

The set of operations that are live again in what is left. It is closed under the rules of the
source, by looking at where control passes in the remaining graph, and so everything that was live
is in it. -/

/-- Is an operation live, and live again in what is left? -/
def carried (g : Graph) (s s' : Liveness) (ω : OpIndex → Option OpIndex) (i : OpIndex) : Bool :=
  s.isLive i && (g.ops[i]?.bind (s.rewrite? i)).isNone && (ω i).any s'.isLive

theorem carried_iff {i : OpIndex} {op : Operation} (hop : g.ops[i]? = some op) :
    carried g s s' ω i = true ↔ s.isLive i = true ∧ s.rewrite? i op = none ∧
      ∃ v, ω i = some v ∧ s'.isLive v = true := by
  rw [carried, hop, Option.bind_some, Bool.and_eq_true, Bool.and_eq_true, Option.isNone_iff_eq_none,
    and_assoc]
  simp [Option.any_eq_true]

theorem isLive_of_carried {i : OpIndex} (h : carried g s s' ω i = true) : s.isLive i = true := by
  rw [carried, Bool.and_eq_true, Bool.and_eq_true] at h
  exact h.1.1

namespace Remnant

/-- Blocks from which control passes to where it passes from the source of `u'` agree about
where that is. -/
theorem exists_passes (h : Remnant g s g' β ω) {F : BlockIndex → Control} {u' : BlockIndex}
    {l : List BlockIndex} (hne : l ≠ [])
    (hall : ∀ t ∈ l, ∃ u w, β u = some u' ∧ F t = .passes w ∧ F u = .passes w) :
    ∃ u w, β u = some u' ∧ F u = .passes w ∧ ∀ t ∈ l, F t = .passes w := by
  obtain ⟨t, ht⟩ := List.exists_mem_of_ne_nil _ hne
  obtain ⟨u, w, hu, -, hw⟩ := hall t ht
  refine ⟨u, w, hu, hw, fun d hd ↦ ?_⟩
  obtain ⟨u₁, w₁, hu₁, hd₁, hw₁⟩ := hall d hd
  cases h.thinned.inj hu hu₁
  cases hw.symm.trans hw₁
  exact hd₁

variable (h : Remnant g s g' β ω) (hA : Liveness.Stabilized g s) (hA' : Liveness.Analysed g' s')

include h hA hA'

omit hA' in
private theorem passes_of_outlet {x x' : BlockIndex} (hx : β x = some x')
    (hout : Outlet g' s'.isLive x') :
    ∃ w, g.entryControl (carried g s s' ω) x = .passes w := by
  obtain ⟨blk, hblk⟩ := Graph.exists_block (hA.survives_lt (h.thinned.survives hx))
  obtain ⟨blk', hblk'⟩ := Graph.exists_block (h.thinned.block_lt hx)
  have hmerge' := hout.merge hblk'
  have hmerge : blk.isMerge = true := by
    rcases (h.block hx hblk hblk').2 with hkind | ⟨hmerge, -⟩
    · rwa [Block.isMerge, ← hkind]
    · exact hmerge
  have hsettled : Settled g (carried g s s' ω) (g.entryControl (carried g s s' ω)) x :=
    Liveness.settled_entryControl hA.sound hA.fit hA.ordered _ x
  refine Settled.exists_passes hsettled hblk hmerge fun i hi ↦ ?_
  rw [Bool.and_eq_false_imp]
  intro hphi
  by_contra hcarried
  rw [Bool.not_eq_false] at hcarried
  obtain ⟨op, hop⟩ := Graph.exists_op (hA.sound.lt_of_mem_span hi)
  rw [hop, Option.any_some] at hphi
  obtain ⟨-, -, v, hv, hlive⟩ := (carried_iff hop).mp hcarried
  obtain ⟨op', hop', himage⟩ := h.reduced.image hv hop
  have hdead := hout.phis v (h.value_mem hx hi hv)
  rw [hop', Option.any_some, Operation.isPhi, himage.action_of_isPhi hphi, ← Operation.isPhi, hphi,
    hlive] at hdead
  cases hdead

omit hA' in
private theorem carried_eq_false_of_dead {x x' : BlockIndex} (hx : β x = some x')
    (hdead : ∀ v ∈ (g'.span x').toList, s'.isLive v = false) :
    ∀ i ∈ (g.span x).toList, carried g s s' ω i = false := by
  intro i hi
  by_contra hcarried
  rw [Bool.not_eq_false] at hcarried
  obtain ⟨op, hop⟩ := Graph.exists_op (hA.sound.lt_of_mem_span hi)
  obtain ⟨-, -, v, hv, hlive⟩ := (carried_iff hop).mp hcarried
  rw [hdead v (h.value_mem hx hi hv)] at hlive
  cases hlive

private theorem passes_of_passes {u' x x' : BlockIndex} (hx : β x = some x')
    (hpasses : s'.controlOf x' = .passes u') : ∃ u w, β u = some u' ∧
      g.entryControl (carried g s s' ω) x = .passes w ∧
      g.entryControl (carried g s s' ω) u = .passes w := by
  have hx'lt := h.thinned.block_lt hx
  induction x', hx'lt, hpasses using hA'.determined.passes_induction generalizing x with
  | outlet _ _ hout =>
    obtain ⟨w, hw⟩ := h.passes_of_outlet hA hx hout
    exact ⟨x, w, hx, hw, hw⟩
  | @through x' c' hx'lt hpasses hdead hc' hnext =>
    have hxlt := hA.survives_lt (h.thinned.survives hx)
    obtain ⟨blk, hblk⟩ := Graph.exists_block hxlt
    obtain ⟨blk', hblk'⟩ := Graph.exists_block hx'lt
    have hloop : blk.isLoop = false := by
      rw [← h.thinned.isLoop hx hblk hblk']
      exact hA'.determined.isLoop_of_passes hblk' hpasses
    have hnone := h.carried_eq_false_of_dead hA hx hdead
    have hsettled : Settled g (carried g s s' ω) (g.entryControl (carried g s s' ω)) x :=
      Liveness.settled_entryControl hA.sound hA.fit hA.ordered _ x
    have hexit : ∀ t ∈ exits g s x, ∃ u w, β u = some u' ∧
        g.entryControl (carried g s s' ω) t = .passes w ∧
        g.entryControl (carried g s s' ω) u = .passes w := by
      intro t ht
      obtain ⟨t', ht'⟩ := h.thinned.exists_of_survives
        (hA.survives_of_exit (h.thinned.survives hx) ht)
      obtain ⟨-, -, -, ih⟩ := hnext t' ((h.thinned.arc_iff hx ht').mpr ht)
      exact ih ht'
    obtain ⟨y, t₀, hy, -, ht₀⟩ := h.thinned.exists_of_arc hc'
    cases h.thinned.inj hx hy
    obtain ⟨u, w, hu, hw, hall⟩ := h.exists_passes (List.ne_nil_of_mem ht₀) hexit
    refine ⟨u, w, hu, ?_, hw⟩
    rcases hA.exits_cases hxlt with ⟨t, heq, -, -, -, ⟨c, hc⟩, harcs'⟩ | ⟨heq, -⟩
    · -- a jump that was rewritten: all ways lead to its target, under the smaller set as well
      refine Settled.passes hsettled hblk hloop hnone (List.ne_nil_of_mem hc) fun d hd ↦ ?_
      rw [← hall t (by rw [heq]; exact List.mem_singleton_self t)]
      exact (hA.passes_of_subset (fun i ↦ isLive_of_carried) (hA.sound.target_lt hd)
        (harcs' d hd)).1
    · rw [heq] at ht₀ hall
      exact Settled.passes hsettled hblk hloop hnone (List.ne_nil_of_mem ht₀) hall

/-- If a jump is rewritten in what is left, its targets in the source lead to one place. -/
theorem exists_passes_of_rewrite {v : OpIndex} {op op' : Operation} {u' : BlockIndex}
    (hjump : op.isJump = true) (hop' : g'.ops[v]? = some op') (hren : op.RenamedTo β ω op')
    (hu' : s'.rewrites.get? v = some u') :
    ∃ w, Control.joinOf (g.entryControl (carried g s s' ω)) op.successors = .passes w := by
  have hjump' : op'.isJump = true := hren.sort_eq.2.2.2.trans hjump
  have hend' := Operation.isTerminator_of_isJump hjump'
  obtain ⟨c, hvc⟩ := hA'.sound.exists_owner (Graph.lt_opCount hop')
  obtain ⟨harcs, -⟩ := hA'.target_of_rewrite hvc hop' hjump' hu'
  have hne : op.successors ≠ [] :=
    (Liveness.successors_ne_nil (Operation.isTerminator_of_isJump hjump)
      (Liveness.isRequired_of_isJump hjump)).2
  obtain ⟨-, w, -, -, hw⟩ := h.exists_passes hne fun t ht ↦ by
    have hmem := List.mem_map_of_mem (f := β) ht
    rw [hren.map_successors, List.mem_map] at hmem
    obtain ⟨t', ht', hβ⟩ := hmem
    refine h.passes_of_passes hA hA' hβ.symm (harcs t' ?_)
    rwa [Graph.Arc, Graph.successors_of_terminator (hA'.sound.ends hvc hop' hend').1 hop']
  exact ⟨w, Control.joinOf_eq_of_forall hne hw⟩

omit h hA' in
/-- A jump that is needed where only what is carried over is kept is not rewritten: if it were, all
of its targets would lead to one place. -/
private theorem rewrite_eq_none_of_stays {i : OpIndex} {op : Operation} (hop : g.ops[i]? = some op)
    (hjump : op.isJump = true)
    (hstays : Control.joinOf (g.entryControl (carried g s s' ω)) op.successors = .stays) :
    s.rewrite? i op = none := by
  obtain ⟨b, hi⟩ := hA.sound.exists_owner (Graph.lt_opCount hop)
  have hend := Operation.isTerminator_of_isJump hjump
  have hne := (Liveness.successors_ne_nil hend (Liveness.isRequired_of_isJump hjump)).2
  have harc : ∀ {t}, t ∈ op.successors → g.Arc b t := fun ht ↦ by
    rwa [Graph.Arc, Graph.successors_of_terminator (hA.sound.ends hi hop hend).1 hop]
  rw [Option.eq_none_iff_forall_ne_some]
  intro t ht
  rw [Liveness.rewrite?, if_pos hjump] at ht
  obtain ⟨harcs, -⟩ := hA.target_of_rewrite hi hop hjump ht
  have hall : ∀ d ∈ op.successors,
      g.entryControl (carried g s s' ω) d = g.entryControl (carried g s s' ω) t ∧
        ∃ u, g.entryControl (carried g s s' ω) d = .passes u :=
    fun d hd ↦ hA.passes_of_subset (fun i ↦ isLive_of_carried)
      (hA.sound.target_lt (harc hd)) (harcs d (harc hd))
  obtain ⟨c, hc⟩ := List.exists_mem_of_ne_nil _ hne
  obtain ⟨hct, w, hw⟩ := hall c hc
  rw [Control.joinOf_eq_of_forall hne fun d hd ↦ (hall d hd).1.trans (hct.symm.trans hw)] at hstays
  cases hstays

private theorem carried_of_required {i : OpIndex} {op : Operation} (hop : g.ops[i]? = some op)
    (hreq : op.isRequired = true) : carried g s s' ω i = true := by
  have hlive := hA.isLive_of_required hop hreq
  have hnone : s.rewrite? i op = none := by
    rw [Liveness.rewrite?, if_neg]
    intro hjump
    rw [Liveness.isRequired_of_isJump hjump] at hreq
    cases hreq
  obtain ⟨b, hi⟩ := hA.sound.exists_owner (Graph.lt_opCount hop)
  obtain ⟨-, v, -, hv⟩ := h.exists_value hA.toAnalysed hi hlive
  obtain ⟨op', hop', himage⟩ := h.reduced.image hv hop
  refine (carried_iff hop).mpr ⟨hlive, hnone, v, hv, hA'.isLive_of_required hop' ?_⟩
  cases himage with
  | rewritten ht =>
    rw [hnone] at ht
    cases ht
  | phi hphi =>
    rw [(Liveness.isRequired_of_isPhi hphi).1] at hreq
    cases hreq
  | renamed _ _ _ hren => rw [hren.sort_eq.2.2.1, hreq]

private theorem carried_of_stays {i : OpIndex} {op : Operation} (hop : g.ops[i]? = some op)
    (hjump : op.isJump = true)
    (hstays : Control.joinOf (g.entryControl (carried g s s' ω)) op.successors = .stays) :
    carried g s s' ω i = true := by
  have hnone := rewrite_eq_none_of_stays hA hop hjump hstays
  obtain ⟨b, hi⟩ := hA.sound.exists_owner (Graph.lt_opCount hop)
  have hlive : s.isLive i = true := Liveness.mem_of_joinOf_eq_stays hA.sound hA.fit hA.ordered
    hA.liveClosed (fun i ↦ isLive_of_carried) (p := 0) (fun {b} _ _ ↦
      Liveness.settled_entryControl hA.sound hA.fit hA.ordered _ b) (Nat.zero_le _) hi hop hjump
    hstays
  obtain ⟨c, v, hc, hv⟩ := h.exists_value hA.toAnalysed hi hlive
  obtain ⟨op', hop', himage⟩ := h.reduced.image hv hop
  refine (carried_iff hop).mpr ⟨hlive, hnone, v, hv, ?_⟩
  cases himage with
  | rewritten ht =>
    rw [hnone] at ht
    cases ht
  | phi hphi =>
    rw [(Liveness.isRequired_of_isPhi hphi).2] at hjump
    cases hjump
  | renamed _ _ _ hren =>
    rcases hA'.jump_cases (h.value_mem hc hi hv) hop' (hren.sort_eq.2.2.2.trans hjump) with
      ⟨hlive', -⟩ | ⟨u', hu', -⟩
    · exact hlive'
    -- a rewritten image would mean that control passes through behind the jump
    · obtain ⟨w, hw⟩ := h.exists_passes_of_rewrite hA hA' hjump hop' hren hu'
      rw [hw] at hstays
      cases hstays

private theorem liveClosed_carried (hfree : g.TerminatorsUnused) :
    g.LiveClosed (carried g s s' ω) where
  required hop hreq := h.carried_of_required hA hA' hop hreq
  inputs {i op} hop hcarried j hj := by
    obtain ⟨hlive, hnone, v, hv, hlive'⟩ := (carried_iff hop).mp hcarried
    obtain ⟨b, hi⟩ := hA.sound.exists_owner (Graph.lt_opCount hop)
    obtain ⟨op', hop', -⟩ := h.reduced.image hv hop
    obtain ⟨w, hw, hjw⟩ := h.exists_input hA.toAnalysed hi hop hnone hlive hv hop' hj
    obtain ⟨opj, hopj⟩ := Graph.exists_op ((hA.fit.wellFormed.referring hop).value_lt j hj)
    refine (carried_iff hopj).mpr
      ⟨hA.isLive_of_input hop hlive hj, ?_, w, hjw, hA'.isLive_of_input hop' hlive' hw⟩
    rw [Liveness.rewrite?, if_neg]
    intro hjump
    have hmem := Array.mem_toList_iff.mpr (Array.mem_of_getElem? hop)
    have hend := hfree op hmem j hj opj hopj
    rw [Operation.isTerminator_of_isJump hjump] at hend
    cases hend
  jumps hop hjump hstays := h.carried_of_stays hA hA' hop hjump hstays

omit h hA hA' in
/-- If everything that is live is carried over, what it becomes is live again. -/
theorem isLive_of_carried_over (hkeeps : ∀ i, s.isLive i = true → carried g s s' ω i = true)
    {i v : OpIndex} {op : Operation} (hop : g.ops[i]? = some op) (hv : ω i = some v)
    (hi : s.isLive i = true) : s'.isLive v = true := by
  obtain ⟨-, -, v', hv', hlive⟩ := (carried_iff hop).mp (hkeeps i hi)
  cases hv.symm.trans hv'
  exact hlive

/-- If everything that is live is carried over, a jump that was rewritten is only rewritten to what
it is: the block behind it holds something live, so that control comes out there. -/
private theorem target_eq_of_rewritten (hkeeps : ∀ i, s.isLive i = true → carried g s s' ω i = true)
    {i v : OpIndex} {op : Operation} {b t d t' : BlockIndex} (hi : i ∈ (g.span b).toList)
    (hop : g.ops[i]? = some op) (ht : s.rewrite? i op = some t) (hd : β t = some d)
    (hop' : g'.ops[v]? = some (.goto d)) (ht' : s'.rewrites.get? v = some t') : t' = d := by
  have hjump := Liveness.isJump_of_rewrite (s := s) (i := i) (by rw [ht, Option.isSome_some])
  rw [Liveness.rewrite?, if_pos hjump] at ht
  obtain ⟨j, hj, hjlive⟩ := hA.exists_live_of_rewrite hi hop hjump ht
  obtain ⟨op₁, hop₁⟩ := Graph.exists_op (hA.sound.lt_of_mem_span hj)
  obtain ⟨-, w, -, hw⟩ := h.exists_value hA.toAnalysed hj hjlive
  obtain ⟨c, hvc⟩ := hA'.sound.exists_owner (Graph.lt_opCount hop')
  obtain ⟨harcs, -⟩ := hA'.target_of_rewrite hvc hop' rfl ht'
  have hpasses : s'.controlOf d = .passes t' := harcs d (by
    rw [Graph.Arc, Graph.successors_of_terminator (hA'.sound.ends hvc hop' rfl).1 hop']
    exact List.mem_singleton_self d)
  rcases hA'.determined.eq_passes (h.thinned.block_lt hd) hpasses with ⟨rfl, -⟩ | ⟨hdead, -⟩
  · rfl
  · have hlive := isLive_of_carried_over hkeeps hop₁ hw hjlive
    rw [hdead w (h.value_mem hd hj hw)] at hlive
    cases hlive

end Remnant

/-! ## What stays

All operations are live the second time, and no jump is rewritten to anything but what it is. -/

/-- The analysis leaves a graph the way it is: every operation is live, but for jumps that are
rewritten to what they are. -/
structure Intact (g : Graph) (s : Liveness) : Prop where
  live : ∀ {i : OpIndex} {op : Operation}, g.ops[i]? = some op → s.rewrite? i op = none →
    s.isLive i = true
  rewritten : ∀ {i : OpIndex} {op : Operation} {t : BlockIndex}, g.ops[i]? = some op →
    s.rewrite? i op = some t → op = .goto t

private theorem Remnant.intact (h : Remnant g s g' β ω) (hA : Liveness.Stabilized g s)
    (hA' : Liveness.Analysed g' s') (hleast : IsLeast {L | g.LiveClosed L} s.isLive)
    (hfree : g.TerminatorsUnused) : Intact g' s' := by
  -- what was found live is carried over, since no smaller set is closed
  have hkeeps : ∀ i, s.isLive i = true → carried g s s' ω i = true :=
    hleast.2 (h.liveClosed_carried hA hA' hfree)
  have hcarried : carried g s s' ω = s.isLive :=
    le_antisymm (fun i ↦ isLive_of_carried) hkeeps
  constructor
  · intro v op' hop' hnone
    obtain ⟨c, b, i, op, hvc, hi, hop, hv, himage⟩ := h.exists_preimage hA.sound hop'
    cases himage with
    | rewritten =>
      rcases hA'.jump_cases hvc hop' rfl with ⟨hlive', -⟩ | ⟨t', ht', -⟩
      · exact hlive'
      · rw [Liveness.rewrite?, if_pos (by rfl), ht'] at hnone
        cases hnone
    | phi _ hi => exact isLive_of_carried_over hkeeps hop hv hi
    | renamed _ hi => exact isLive_of_carried_over hkeeps hop hv hi
  · intro v op' t' hop' ht'
    have hjump' : op'.isJump = true :=
      Liveness.isJump_of_rewrite (s := s') (i := v) (by rw [ht', Option.isSome_some])
    rw [Liveness.rewrite?, if_pos hjump'] at ht'
    obtain ⟨c, b, i, op, hvc, hi, hop, hv, himage⟩ := h.exists_preimage hA.sound hop'
    cases himage with
    | rewritten ht hd =>
      rw [h.target_eq_of_rewritten hA hA' hkeeps hi hop ht hd hop' ht']
    | phi hphi _ haction =>
      rw [Operation.isJump, haction, ← Operation.isJump, (Liveness.isRequired_of_isPhi hphi).2]
        at hjump'
      cases hjump'
    | renamed hnone _ _ hren =>
      have hjump : op.isJump = true := hren.sort_eq.2.2.2.symm.trans hjump'
      obtain ⟨w, hw⟩ := h.exists_passes_of_rewrite hA hA' hjump hop' hren ht'
      rw [hcarried, hA.joinOf_eq hi hop hjump] at hw
      have hb := Graph.lt_blockCount_of_mem_span hi
      rw [Liveness.rewrite?, if_pos hjump, (hA.stable hb).agrees.passes hi hop hjump hw] at hnone
      cases hnone

/-! ## The same graph again

A graph that is left intact is copied to itself: both number their blocks and their operations in
the same order, block after block. The sample loses two blocks and a merge the first time, and
nothing the second time. -/

namespace Intact

variable (h : Intact g s) (hA : Liveness.Analysed g s)

include h

private theorem kept {i : OpIndex} {op : Operation} (hop : g.ops[i]? = some op) : s.Kept i op := by
  cases hnone : s.rewrite? i op with
  | none => exact Or.inl (h.live hop hnone)
  | some t => exact Or.inr (by rw [hnone, Option.isSome_some])

include hA

theorem exits_eq {b : BlockIndex} (hb : b < g.blockCount) : exits g s b = g.successors b := by
  obtain ⟨i, op, hterm, hi, hop, hend⟩ := hA.determined.exists_terminator hb
  rw [hA.exits_of_terminator hi hop hend, Graph.successors_of_terminator hterm hop]
  cases ht : s.rewrite? i op with
  | none => rfl
  | some t =>
    rw [h.rewritten hop ht]
    rfl

private theorem survives {b : BlockIndex} (hb : b < g.blockCount) : Survives g s b := by
  rw [Liveness.survives_iff]
  refine Relation.ReflTransGen.mono (fun u v harc ↦ ⟨harc.2, ?_⟩) _ _
    (Graph.leads_entry hA.sound hA.fit hA.ordered hb)
  rw [h.exits_eq hA (hA.sound.arc_lt harc.1).1]
  exact harc.1

end Intact

namespace Remnant

variable (h : Remnant g s g' β ω) (hA : Liveness.Analysed g s) (hint : Intact g s)

include h hA hint

theorem block_self : ∀ {b : BlockIndex}, b < g.blockCount → β b = some b := by
  intro b
  induction b with
  | zero => exact fun _ ↦ h.thinned.entry
  | succ b ih =>
    intro hb
    have hself := ih (Nat.lt_of_succ_lt hb)
    obtain ⟨c, hc⟩ := h.thinned.exists_of_survives (hint.survives hA hb)
    have hbc : b < c := (h.thinned.lt_iff hself hc).mp (Nat.lt_succ_self b)
    rcases Nat.eq_or_lt_of_le (Nat.succ_le_of_lt hbc) with rfl | hlt
    · exact hc
    · -- a block would stand between two that follow each other
      obtain ⟨d, hd⟩ := h.thinned.surj (Nat.lt_trans hlt (h.thinned.block_lt hc))
      have hbd := (h.thinned.lt_iff hself hd).mpr (Nat.lt_succ_self b)
      have hdc := (h.thinned.lt_iff hd hc).mpr hlt
      lia

theorem blockCount_eq : g'.blockCount = g.blockCount := by
  refine Nat.le_antisymm (Nat.not_lt.mp fun hlt ↦ ?_) (Nat.not_lt.mp fun hlt ↦ ?_)
  · obtain ⟨b, hb⟩ := h.thinned.surj hlt
    have hb' := h.reduced.block_lt hb
    cases hb.symm.trans (h.block_self hA hint hb')
    exact Nat.lt_irrefl _ hb'
  · exact absurd (h.thinned.block_lt (h.block_self hA hint hlt)) (Nat.lt_irrefl _)

theorem block_eq {b c : BlockIndex} (hb : β b = some c) : c = b :=
  Option.some.inj (hb.symm.trans (h.block_self hA hint (h.reduced.block_lt hb)))

theorem map_span {b : BlockIndex} (hb : b < g.blockCount) :
    (g'.span b).toList.map some = (g.span b).toList.map ω := by
  have hself := h.block_self hA hint hb
  rw [h.reduced.span hself, List.map_filterMap_some_eq_filter_map_isSome, List.filter_eq_self]
  intro v hv
  obtain ⟨i, hi, rfl⟩ := List.mem_map.mp hv
  obtain ⟨op, hop⟩ := Graph.exists_op (hA.sound.lt_of_mem_span hi)
  exact h.reduced.kept hself hi hop (hint.kept hop)

/-- The result numbers its operations in the order of the blocks. -/
theorem map_opsOf : (List.range g'.opCount).map some =
    (g.opsOf (List.range g.blockCount)).map ω := by
  rw [← h.laid.ops_eq, h.blockCount_eq hA hint, Graph.opsOf, Graph.opsOf, List.map_flatMap,
    List.map_flatMap]
  exact List.flatMap_congr fun b hb ↦ h.map_span hA hint (List.mem_range.mp hb)

theorem opCount_eq : g'.opCount = g.opCount := by
  have hlen := congrArg List.length (h.map_opsOf hA hint)
  rwa [List.length_map, List.length_map, List.length_range,
    (Graph.opsOf_perm hA.sound (.refl _)).length_eq, List.length_range] at hlen

variable (hlaid : g.Laid)

include hlaid

private theorem map_range : (List.range g'.opCount).map some = (List.range g.opCount).map ω := by
  rw [h.map_opsOf hA hint, hlaid.ops_eq]

theorem op_self {i : OpIndex} (hi : i < g.opCount) : ω i = some i := by
  have hget := congrArg (·[i]?) (h.map_range hA hint hlaid)
  rw [h.opCount_eq hA hint] at hget
  simp only [List.getElem?_map, List.getElem?_range hi, Option.map_some, Option.some.injEq] at hget
  exact hget.symm

theorem span_self (b : BlockIndex) : (g'.span b).toList = (g.span b).toList := by
  by_cases hb : b < g.blockCount
  · refine (List.map_injective_iff.mpr (Option.some_injective _)) ?_
    rw [h.map_span hA hint hb]
    exact List.map_congr_left fun i hi ↦ h.op_self hA hint hlaid (hA.sound.lt_of_mem_span hi)
  · have hle := Nat.le_of_not_lt hb
    rw [Graph.toList_span_of_le hle]
    exact Graph.toList_span_of_le (h.blockCount_eq hA hint ▸ hle)

theorem exists_image {i : OpIndex} {op : Operation} (hop : g.ops[i]? = some op) :
    ∃ op', g'.ops[i]? = some op' ∧ Image s β ω i op op' :=
  h.reduced.image (h.op_self hA hint hlaid (Graph.lt_opCount hop)) hop

omit hlaid in
theorem action_eq {i : OpIndex} {op op' : Operation} (hop : g.ops[i]? = some op)
    (himage : Image s β ω i op op') : op'.action = op.action := by
  cases himage with
  | rewritten ht hc => rw [hint.rewritten hop ht, h.block_eq hA hint hc]
  | phi _ _ haction => exact haction
  | renamed _ _ _ hren =>
    rcases hren.action_cases with
      ⟨t, c, haction, hc, haction'⟩ | ⟨t, f, c, d, hint', haction, hc, hd, haction'⟩ | ⟨heq, -⟩
    · rw [haction, haction', h.block_eq hA hint hc]
    · rw [haction, haction', h.block_eq hA hint hc, h.block_eq hA hint hd]
    · exact heq

variable (hedges : g.edges.toList = g.recordedEdges) (hbound : g.bound = none)

include hedges hbound

/-- The blocks, the actions and the edges are the same. -/
theorem alike : Graph.Alike g g' := by
  have hactions : ∀ i : OpIndex,
      g'.ops[i]?.map Operation.action = g.ops[i]?.map Operation.action := by
    intro i
    by_cases hi : i < g.opCount
    · obtain ⟨op, hop⟩ := Graph.exists_op hi
      obtain ⟨op', hop', himage⟩ := h.exists_image hA hint hlaid hop
      rw [hop, hop', Option.map_some, Option.map_some, h.action_eq hA hint hop himage]
    · have hi' : ¬i < g'.opCount := by rwa [h.opCount_eq hA hint]
      rw [Array.getElem?_eq_none (Nat.not_lt.mp hi), Array.getElem?_eq_none (Nat.not_lt.mp hi'),
        Option.map_none]
  have howners : g'.owners = g.owners := by
    refine Array.ext_getElem? fun i ↦ Option.ext fun b ↦ ?_
    rw [← h.thinned.sound.mem_span_iff, h.span_self hA hint hlaid, hA.sound.mem_span_iff]
  have hoffset : ∀ b, g'.offset b = g.offset b := by
    intro b
    rw [Graph.offset, Graph.offset, Graph.opsOf, Graph.opsOf]
    exact congrArg List.length (List.flatMap_congr fun c _ ↦ h.span_self hA hint hlaid c)
  refine ⟨hactions, howners, fun b ↦ ?_, ?_, h.bound_eq.trans hbound.symm⟩
  · by_cases hb : b < g.blockCount
    · obtain ⟨blk, hblk⟩ := Graph.exists_block hb
      obtain ⟨blk', hblk'⟩ := Graph.exists_block ((h.blockCount_eq hA hint).symm ▸ hb)
      rw [hblk, hblk', Option.map_some, Option.map_some, hlaid.span_eq hA.sound hblk,
        h.laid.span_eq h.thinned.sound hblk', hoffset, hoffset]
    · have hb' : ¬b < g'.blockCount := by rwa [h.blockCount_eq hA hint]
      rw [Array.getElem?_eq_none (Nat.not_lt.mp hb), Array.getElem?_eq_none (Nat.not_lt.mp hb'),
        Option.map_none]
  · rw [← Array.toList_inj, h.edges_eq, hedges, Graph.recordedEdges_congr hactions howners]

private theorem op_eq (hwf' : g'.WellFormed) {i : OpIndex} {op op' : Operation}
    (hop : g.ops[i]? = some op) (hop' : g'.ops[i]? = some op') (himage : Image s β ω i op op') :
    op' = op := by
  have haction := h.action_eq hA hint hop himage
  have hvalue : ∀ {j w}, j ∈ op.inputs → ω j = some w → w = j := fun hj hw ↦
    Option.some.inj (hw.symm.trans
      (h.op_self hA hint hlaid ((hA.fit.wellFormed.referring hop).value_lt _ hj)))
  suffices hinputs : op'.inputs = op.inputs by
    obtain ⟨action, inputs⟩ := op
    obtain ⟨action', inputs'⟩ := op'
    simp_all
  cases himage with
  | rewritten ht =>
    rw [hint.rewritten hop ht]
    rfl
  | phi hphi =>
    have halike := h.alike hA hint hlaid hedges hbound
    obtain ⟨b, hi⟩ := hA.sound.exists_owner (Graph.lt_opCount hop)
    have hb := Graph.lt_blockCount_of_mem_span hi
    obtain ⟨blk, hblk⟩ := Graph.exists_block hb
    obtain ⟨blk', hblk'⟩ := Graph.exists_block ((h.blockCount_eq hA hint).symm ▸ hb)
    have hi' : i ∈ (g'.span b).toList := by rwa [h.span_self hA hint hlaid]
    have hlen := (hA.fit.wellFormed.matched hblk (Graph.span_of_block hblk ▸ hi) hop hphi).2
    have hphi' : op'.isPhi = true := by rwa [Operation.isPhi, haction, ← Operation.isPhi]
    have hlen' := (hwf'.matched hblk' (Graph.span_of_block hblk' ▸ hi') hop' hphi').2
    rw [halike.predecessors_eq] at hlen'
    refine List.ext_getElem (hlen'.trans hlen.symm) fun q hq' hq ↦ ?_
    have hp := List.getElem?_eq_getElem (hlen' ▸ hq')
    generalize (g.predecessors b)[q] = p at hp
    have harc : g.Arc p b := hA.sound.mem_predecessors_iff.mp (List.mem_of_getElem? hp)
    have hslot : (g.slots b p)[((g.predecessors b).take q).count p]? = some q :=
      getElem?_positionsOf.mpr ⟨hp, rfl⟩
    have hslots : g'.slots b p = g.slots b p := by
      rw [Graph.slots, Graph.slots, halike.predecessors_eq]
    obtain ⟨k, j, w, hk, hj, hw, hinput⟩ := h.reduced.phi
      (h.op_self hA hint hlaid (Graph.lt_opCount hop)) hi hop hphi hop' (h.block_self hA hint hb)
      (h.block_self hA hint (hA.sound.arc_lt harc).1) (hslots ▸ hslot)
    cases hslot.symm.trans hk
    rw [List.getElem?_eq_getElem hq, Option.some.injEq] at hj
    rw [List.getElem?_eq_getElem hq', Option.some.injEq] at hinput
    rw [hinput, hj, hvalue (hj ▸ List.getElem_mem hq) hw]
  | renamed _ _ _ hren =>
    refine List.ext_getElem hren.inputs.length_eq.symm fun q hq' hq ↦ ?_
    exact hvalue (List.getElem_mem hq) (hren.inputs.get hq hq')

/-- If the source is left the way it is, nothing has changed. -/
theorem eq_self (hwf' : g'.WellFormed)
    (hmerge : ∀ {b : BlockIndex} {blk : Block}, g.blocks[b]? = some blk → blk.isMerge = true →
      (g.predecessors b).length = 1 →
        ∃ i ∈ (g.span b).toList, g.ops[i]?.any Operation.isPhi = true) :
    g' = g := by
  have halike := h.alike hA hint hlaid hedges hbound
  have hops : g'.ops = g.ops := by
    refine Array.ext_getElem? fun i ↦ ?_
    by_cases hi : i < g.opCount
    · obtain ⟨op, hop⟩ := Graph.exists_op hi
      obtain ⟨op', hop', himage⟩ := h.exists_image hA hint hlaid hop
      rw [hop', hop, h.op_eq hA hint hlaid hedges hbound hwf' hop hop' himage]
    · have hi' : ¬i < g'.opCount := by rwa [h.opCount_eq hA hint]
      rw [Array.getElem?_eq_none (Nat.not_lt.mp hi), Array.getElem?_eq_none (Nat.not_lt.mp hi')]
  have hblocks : g'.blocks = g.blocks := by
    refine Array.ext_getElem? fun b ↦ ?_
    have hspan := halike.spans b
    by_cases hb : b < g.blockCount
    · obtain ⟨blk, hblk⟩ := Graph.exists_block hb
      obtain ⟨blk', hblk'⟩ := Graph.exists_block ((h.blockCount_eq hA hint).symm ▸ hb)
      obtain ⟨hdeferred, hkind⟩ := h.block (h.block_self hA hint hb) hblk hblk'
      rw [hblk, hblk', Option.map_some, Option.map_some, Option.some.injEq] at hspan
      have hkind : blk'.kind = blk.kind := by
        rcases hkind with hkind | ⟨hm, -, hlen, hnone⟩
        · exact hkind
        · -- a merge that is entered once has a phi, and it is still there
          rw [halike.predecessors_eq] at hlen
          obtain ⟨i, hi, hphi⟩ := hmerge hblk hm hlen
          rw [← h.span_self hA hint hlaid] at hi
          rw [← hops, hnone i hi] at hphi
          cases hphi
      rw [hblk, hblk']
      obtain ⟨kind, deferred, span⟩ := blk
      obtain ⟨kind', deferred', span'⟩ := blk'
      simp_all
    · have hb' : ¬b < g'.blockCount := by rwa [h.blockCount_eq hA hint]
      rw [Array.getElem?_eq_none (Nat.not_lt.mp hb), Array.getElem?_eq_none (Nat.not_lt.mp hb')]
  calc g' = ⟨g'.name, g'.ops, g'.owners, g'.blocks, g'.edges, g'.bound⟩ := rfl
    _ = ⟨g.name, g.ops, g.owners, g.blocks, g.edges, g.bound⟩ := by
      rw [h.name_eq, hops, halike.owners, hblocks, halike.edges, halike.bound]

end Remnant

/-- Eliminating dead operations again changes nothing. -/
theorem eliminate_eliminate {g g₁ : Graph} {s : Liveness} (hbuilt : g.Built)
    (hfit : g.problems true = []) (hfree : g.TerminatorsUnused)
    (h : g.eliminate false = .ok (g₁, s)) : ∃ s₁, g₁.eliminate false = .ok (g₁, s₁) := by
  obtain ⟨s', hs, h⟩ := exists_of_bind_ok h
  obtain ⟨g', hrebuild, h⟩ := exists_of_bind_ok h
  cases h
  have hA := Liveness.stabilized_of_liveness hbuilt hfit hs
  have hleast := Liveness.isLeast_isLive hA.sound hA.fit hA.ordered hs
  obtain ⟨β, ω, hrem⟩ := exists_remnant hA.toAnalysed hrebuild
  obtain ⟨g₁', hg₁', hsound, hfit₁, hord⟩ :=
    exists_rebuild hA.toAnalysed (hrem.ready hA.toAnalysed) false
  cases hrebuild.symm.trans hg₁'
  obtain ⟨s₁, hs₁⟩ := Liveness.exists_liveness hsound hfit₁ hord (hrem.deadUnused hA)
  obtain ⟨hsized, hstable⟩ := Liveness.stable_of_liveness hsound hfit₁ hord hs₁
  have hA₁ := (Liveness.Stabilized.of_stable hsound hfit₁ hord hsized hstable).toAnalysed
  obtain ⟨g₂, hg₂, -, hfit₂, -⟩ := exists_rebuild hA₁
    (Liveness.ready_of_definedFirst hsound hrem.definedFirst s₁) false
  obtain ⟨β₁, ω₁, hrem₁⟩ := exists_remnant hA₁ hg₂
  obtain rfl := hrem₁.eq_self hA₁ (hrem.intact hA hA₁ hleast hfree) hrem.laid hrem.edges_eq
    hrem.bound_eq hfit₂.wellFormed hrem.merge
  refine ⟨s₁, ?_⟩
  rw [Graph.eliminate, hs₁, ok_bind, hg₂, ok_bind]
  rfl

/-- A branch whose sides meet in a merge, with a phi that is not used. -/
def meetBlocks : List (BlockKind × List Operation) :=
  [(.entry, [.pure .empty [], .branch 0 1 2 .unhinted]),
    (.plain, [.goto 3]),
    (.plain, [.goto 3]),
    (.merge, [⟨.phi .word32, [0, 0]⟩, .ret [0]])]

/-- The graph of a branch whose sides meet. -/
def Graph.sampleMeet : Graph := (ofBlocks meetBlocks).toOption.getD (.empty .empty)

theorem eliminate_eliminate_sampleMeet : ∃ g₁ s s₁,
    Graph.sampleMeet.eliminate false = .ok (g₁, s) ∧ g₁.eliminate false = .ok (g₁, s₁) := by
  have hbuilt : Graph.sampleMeet.Built :=
    Graph.ofBlocks_built (show Graph.ofBlocks meetBlocks = _ from rfl)
  have hproblems : Graph.sampleMeet.problems true = [] := by decide
  obtain ⟨hfit, hord⟩ := (Graph.problems_eq_nil hbuilt.sound true).mp hproblems
  obtain ⟨g₁, s, h, -⟩ := exists_eliminate hbuilt.sound hfit (hord rfl) (by decide)
    (by decide) false
  obtain ⟨s₁, h₁⟩ := eliminate_eliminate hbuilt hproblems (by decide) h
  exact ⟨g₁, s, s₁, h, h₁⟩

example : (Graph.sampleMeet.eliminate false).toOption.map (fun r ↦ r.1.blocks.map Block.kind) =
    some #[.entry, .plain] := by
  decide +kernel

end Flowgraph
