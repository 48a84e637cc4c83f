import Flowgraph.Proofs.Rebuild.Assembling

/-!
# The graph without its dead operations

The copy of a whole graph, block by block. Blocks that nothing refers to are left out, and the rest
is numbered in the order in which it was copied. `Reduced` says how a graph and the result of
dropping its dead operations are related, with all that happened in between composed into one map
of blocks and one of operations.

## What a success tells

Two things could go wrong on the way without being noticed at once: a block could be referred to
after it was passed, and a phi could take a value that is not copied. Both make the final
renumbering fail, the first because the blocks that were filled are not all blocks, the second
because the handle that names nothing is not an operation.
-/

namespace Flowgraph

variable {g : Graph} {s : Liveness} {fwd : Bool} {ρ : OpIndex → OpIndex} {n : BlockIndex}
  {a a' : Assembler}

/-! ## The result

`Rebuilt` allows for forwarded phis, by a map from operations to those that stand for them;
`Reduced` is the case in which every operation stands for itself. -/

/-- A phi of a merge whose value is that of another operation, as are the values of the inputs that
it has for the predecessors that are left. -/
structure Merged (g g' : Graph) (s : Liveness) (β : BlockIndex → Option BlockIndex)
    (ρ : OpIndex → OpIndex) (i : OpIndex) (b c : BlockIndex) (blk : Block) (op : Operation) :
    Prop where
  mem : i ∈ (g.span b).toList
  copy : β b = some c
  block : g.blocks[b]? = some blk
  isLoop : blk.isLoop = false
  op_eq : g.ops[i]? = some op
  isPhi : op.isPhi = true
  isLive : s.isLive i = true
  input : ∀ {p p' : BlockIndex} {r q : Nat}, β p = some p' → (g'.slots c p')[r]? = some q →
    ∃ k j, (g.slots b p)[r]? = some k ∧ op.inputs[k]? = some j ∧ ρ j = ρ i

/-- A graph `g'` without the dead operations of `g`, and where the blocks and operations of `g` have
gone. An operation `i` that was copied has become operation `ε i`, and what used the value of `i`
uses the one of `ρ i` now. -/
structure Rebuilt (g : Graph) (s : Liveness) (g' : Graph) (β : BlockIndex → Option BlockIndex)
    (ε : OpIndex → Option OpIndex) (ρ : OpIndex → OpIndex) : Prop where
  sound : g'.Sound
  entry : β 0 = some 0
  block_lt : ∀ {b c : BlockIndex}, β b = some c → b < g.blockCount
  block_inj : ∀ {b b' c : BlockIndex}, β b = some c → β b' = some c → b = b'
  op_inj : ∀ {i i' v : OpIndex}, ε i = some v → ε i' = some v → i = i'
  root : ∀ i, ρ (ρ i) = ρ i
  span : ∀ {b c : BlockIndex}, β b = some c →
    (g'.span c).toList = (g.span b).toList.filterMap ε
  kept : ∀ {b c : BlockIndex} {i : OpIndex} {op : Operation}, β b = some c →
    i ∈ (g.span b).toList → g.ops[i]? = some op → s.Kept i op → (ε (ρ i)).isSome = true
  image : ∀ {i v : OpIndex} {op : Operation}, ε i = some v → g.ops[i]? = some op →
    ∃ op', g'.ops[v]? = some op' ∧ Image s β (fun j ↦ ε (ρ j)) i op op'
  phi : ∀ {i v : OpIndex} {op op' : Operation} {b c p p' : BlockIndex} {r q : Nat},
    ε i = some v → i ∈ (g.span b).toList → g.ops[i]? = some op → op.isPhi = true →
    g'.ops[v]? = some op' → β b = some c → β p = some p' → (g'.slots c p')[r]? = some q →
    ∃ k j w, (g.slots b p)[r]? = some k ∧ op.inputs[k]? = some j ∧ ε (ρ j) = some w ∧
      op'.inputs[q]? = some w
  merged : ∀ {i : OpIndex}, ρ i ≠ i → ∃ b c blk op, Merged g g' s β ρ i b c blk op

/-- A graph `g'` without the dead operations of `g`, and where the blocks and operations of `g` have
gone. -/
structure Reduced (g : Graph) (s : Liveness) (g' : Graph) (β : BlockIndex → Option BlockIndex)
    (ω : OpIndex → Option OpIndex) : Prop where
  sound : g'.Sound
  entry : β 0 = some 0
  block_lt : ∀ {b c : BlockIndex}, β b = some c → b < g.blockCount
  block_inj : ∀ {b b' c : BlockIndex}, β b = some c → β b' = some c → b = b'
  op_inj : ∀ {i i' v : OpIndex}, ω i = some v → ω i' = some v → i = i'
  span : ∀ {b c : BlockIndex}, β b = some c →
    (g'.span c).toList = (g.span b).toList.filterMap ω
  kept : ∀ {b c : BlockIndex} {i : OpIndex} {op : Operation}, β b = some c →
    i ∈ (g.span b).toList → g.ops[i]? = some op → s.Kept i op → (ω i).isSome = true
  image : ∀ {i v : OpIndex} {op : Operation}, ω i = some v → g.ops[i]? = some op →
    ∃ op', g'.ops[v]? = some op' ∧ Image s β ω i op op'
  phi : ∀ {i v : OpIndex} {op op' : Operation} {b c p p' : BlockIndex} {r q : Nat},
    ω i = some v → i ∈ (g.span b).toList → g.ops[i]? = some op → op.isPhi = true →
    g'.ops[v]? = some op' → β b = some c → β p = some p' → (g'.slots c p')[r]? = some q →
    ∃ k j w, (g.slots b p)[r]? = some k ∧ op.inputs[k]? = some j ∧ ω j = some w ∧
      op'.inputs[q]? = some w

section

variable {g' : Graph} {β : BlockIndex → Option BlockIndex} {ω ε : OpIndex → Option OpIndex}

/-- Without forwarded phis every operation keeps the value that it has of its own. -/
theorem Rebuilt.reduced (h : Rebuilt g s g' β ω id) : Reduced g s g' β ω :=
  ⟨h.sound, h.entry, h.block_lt, h.block_inj, h.op_inj, h.span, h.kept, h.image, h.phi⟩

/-- Only a phi gives its place to another operation. -/
theorem Rebuilt.root_of_isTerminator (h : Rebuilt g s g' β ε ρ) {i : OpIndex} {op : Operation}
    (hop : g.ops[i]? = some op) (hend : op.isTerminator = true) : ρ i = i := by
  by_contra hne
  obtain ⟨_, _, _, op', hm⟩ := h.merged hne
  cases hop.symm.trans hm.op_eq
  rw [Operation.isTerminator_of_isPhi hm.isPhi] at hend
  cases hend

theorem Reduced.rebuilt (h : Reduced g s g' β ω) : Rebuilt g s g' β ω id :=
  ⟨h.sound, h.entry, h.block_lt, h.block_inj, h.op_inj, fun _ ↦ rfl, h.span, h.kept, h.image,
    h.phi, fun hne ↦ absurd rfl hne⟩

end

/-- Every terminator is kept: a return is required, and a jump is live or rewritten. -/
theorem kept_of_isTerminator (hA : Liveness.Analysed g s) {b : BlockIndex} {i : OpIndex}
    {op : Operation} (hi : i ∈ (g.span b).toList) (hop : g.ops[i]? = some op)
    (hend : op.isTerminator = true) : s.Kept i op := by
  cases hreq : op.isRequired with
  | true => exact Or.inl (hA.isLive_of_required hop hreq)
  | false =>
    have hjump := (Liveness.successors_ne_nil hend hreq).1
    rcases hA.jump_cases hi hop hjump with ⟨hlive, -⟩ | ⟨t, ht, -⟩
    · exact Or.inl hlive
    · refine Or.inr ?_
      rw [Liveness.rewrite?, if_pos hjump, ht, Option.isSome_some]

/-- The terminator of a copied block stands for the one of its source. -/
theorem Rebuilt.terminator_eq {g' : Graph} {β : BlockIndex → Option BlockIndex}
    {ε : OpIndex → Option OpIndex} (h : Rebuilt g s g' β ε ρ) {b c : BlockIndex} (hc : β b = some c)
    {i v : OpIndex} (hi : g.terminator? b = some i) (hv : ε i = some v) :
    g'.terminator? c = some v := by
  rw [Graph.terminator?, Span.last?_eq_getLast?, h.span hc, Span.toList_eq_append_last hi,
    List.filterMap_append, List.filterMap_cons_some hv, List.filterMap_nil,
    List.getLast?_concat]

theorem Reduced.terminator_eq {g' : Graph} {β : BlockIndex → Option BlockIndex}
    {ω : OpIndex → Option OpIndex} (h : Reduced g s g' β ω) {b c : BlockIndex} (hc : β b = some c)
    {i v : OpIndex} (hi : g.terminator? b = some i) (hv : ω i = some v) :
    g'.terminator? c = some v := h.rebuilt.terminator_eq hc hi hv

private theorem Image.comp {β₁ : BlockIndex → Option BlockIndex} {ω₁ : OpIndex → Option OpIndex}
    {i : OpIndex} {op op' : Operation} (h : Image s β₁ ω₁ i op op') (β : BlockIndex → BlockIndex)
    (ω : OpIndex → OpIndex) :
    Image s (fun b ↦ (β₁ b).map β) (fun i ↦ (ω₁ i).map ω) i op (op'.renamed β ω) := by
  cases h with
  | rewritten ht hc => exact .rewritten ht (by rw [hc, Option.map_some])
  | phi hphi hlive haction =>
    refine .phi hphi hlive ?_
    rw [Operation.renamed, haction]
    obtain ⟨action, inputs⟩ := op
    cases action <;> first | rfl | cases hphi
  | renamed hnone hlive hphi hren =>
    refine .renamed hnone hlive hphi ⟨?_, ?_⟩
    · have haction := hren.action
      obtain ⟨action, inputs⟩ := op
      obtain ⟨action', inputs'⟩ := op'
      cases action with
      | goto t =>
        obtain ⟨c, hc, heq⟩ := Option.bind_eq_some_iff.mp haction
        cases heq
        simp only [Action.rename, hc]
        rfl
      | branch t f hint =>
        obtain ⟨c, hc, heq⟩ := Option.bind_eq_some_iff.mp haction
        obtain ⟨d, hd, heq⟩ := Option.bind_eq_some_iff.mp heq
        cases heq
        simp only [Action.rename, hc, hd]
        rfl
      | _ =>
        cases haction
        rfl
    · rw [Operation.renamed_inputs, List.forall₂_map_right_iff]
      exact hren.inputs.imp fun i v hv ↦ by rw [hv, Option.map_some]

/-! ## The renumbering

The maps of the copy are composed with the final renumbering. Copies keep apart what is different,
so that every part of the invariant is carried over, with the inputs of phis found in the slots of
the renumbered predecessors. -/

section

variable {out g' : Graph} (h : Assembled g s fwd ρ n a) (halike : Graph.Alike a.output out)
  (hops : out.ops = a.output.ops) (hre : out.reorder a.filled.toList = .ok g')

include h halike hre

/-- A phi of the result has inputs that its original has in the corresponding slots. -/
theorem Assembled.phi_input {b c p p' : BlockIndex} {op op₁ : Operation}
    (hmatched : PhiMatched g a.output a.copy? a.value? b c op op₁) (hc : a.copy? b = some c)
    (hp : a.copy? p = some p') (hne : ∀ w ∈ op₁.inputs, w ≠ noHandle) {r q : Nat}
    (hq : (g'.slots (a.filled.toList.idxOf c) (a.filled.toList.idxOf p'))[r]? = some q) :
    ∃ k j w, (g.slots b p)[r]? = some k ∧ op.inputs[k]? = some j ∧ a.value? j = some w ∧
      op₁.inputs[q]? = some w := by
  have hout := halike.sound h.copying.sound
  have hren := Graph.reorder_renamed hout hre
  have hlt : ∀ {b c}, a.copy? b = some c → c < out.blockCount := fun hc ↦ by
    rw [halike.blockCount_eq]
    exact h.copying.copy_lt hc
  have hslots : (a.output.slots c p')[r]? = some q := by
    rw [Graph.slots, hren.predecessors_eq hout (hlt hc), positionsOf_map fun x hx ↦
      hren.block_inj (hout.edge_lt (Graph.mem_predecessors.mp hx)).1 (hlt hp),
      halike.predecessors_eq] at hq
    exact hq
  obtain ⟨hpred, hcount⟩ := getElem?_positionsOf.mp hslots
  obtain ⟨p₁, k, j, w, hp₁, hk, hj, hw, hor⟩ := hmatched.input hpred
  rw [hcount] at hk
  rw [h.copying.copy_inj hp₁ hp] at hk
  exact ⟨k, j, w, hk, hj, hor.resolve_left (hne w (List.mem_of_getElem? hw)), hw⟩

private theorem Assembled.merged_renumbered {i : OpIndex} (hne : ρ i ≠ i) :
    ∃ b c blk op, Merged g g' s (fun b ↦ (a.copy? b).map a.filled.toList.idxOf) ρ i b c blk op := by
  obtain ⟨b, c, blk, op, v, inputs, hf⟩ := h.copying.forwarded hne
  refine ⟨b, _, blk, op, hf.mem, by rw [hf.copy, Option.map_some], hf.block, hf.isLoop,
    hf.op_eq, hf.isPhi, hf.isLive, fun {p p' r q} hp hq ↦ ?_⟩
  obtain ⟨e, he, rfl⟩ := Option.map_eq_some_iff.mp hp
  have hvlt := h.copying.value_lt hf.value
  obtain ⟨k, j, w, hk, hj, hvalue, hw⟩ := h.phi_input halike hre hf.matched hf.copy he
    (fun w hw ↦ hf.inputs_eq w hw ▸
      Nat.ne_of_lt (Nat.lt_of_lt_of_le hvlt h.copying.sound.ops_le)) hq
  rw [hf.inputs_eq w (List.mem_of_getElem? hw)] at hvalue
  exact ⟨k, j, hk, hj, h.copying.root_eq hvalue hf.value⟩

include hops

private theorem Assembled.phi_renumbered (hphis : ∀ i, PhiComplete g ρ a i) {i v : OpIndex}
    {op op' : Operation} {b c p p' : BlockIndex} {r q : Nat}
    (hv : (a.own ρ i).map (out.opsOf a.filled.toList).idxOf = some v) (hi : i ∈ (g.span b).toList)
    (hop : g.ops[i]? = some op) (hphi : op.isPhi = true) (hop' : g'.ops[v]? = some op')
    (hc : (a.copy? b).map a.filled.toList.idxOf = some c)
    (hp : (a.copy? p).map a.filled.toList.idxOf = some p') (hq : (g'.slots c p')[r]? = some q) :
    ∃ k j w, (g.slots b p)[r]? = some k ∧ op.inputs[k]? = some j ∧
      (a.own ρ (ρ j)).map (out.opsOf a.filled.toList).idxOf = some w ∧
        op'.inputs[q]? = some w := by
  have hout := halike.sound h.copying.sound
  obtain ⟨-, -, hval⟩ := Graph.of_reorder_ok hout hre
  have hren := Graph.reorder_renamed hout hre
  obtain ⟨w, hw, rfl⟩ := Option.map_eq_some_iff.mp hv
  obtain ⟨d, hd, rfl⟩ := Option.map_eq_some_iff.mp hc
  obtain ⟨e, he, rfl⟩ := Option.map_eq_some_iff.mp hp
  have hlt : w < out.opCount := by
    rw [halike.opCount_eq]
    exact h.copying.value_lt (Assembler.own_eq_some.mp hw).2
  obtain ⟨op₁, hop₁, rfl⟩ := hren.op_of_renamed hlt hop'
  have hop₁' : a.output.ops[w]? = some op₁ := by rw [← hops]; exact hop₁
  -- the handle that names nothing would have stopped the renumbering
  obtain ⟨k, j, w', hk, hj, hvalue, hw'⟩ := h.phi_input halike hre
    (hphis i w op op₁ b d hw hi hop hphi hop₁' hd) hd he
    (fun w' hw' ↦ Nat.ne_of_lt (Nat.lt_of_lt_of_le (hval hop₁ w' hw') hout.ops_le)) hq
  refine ⟨k, j, _, hk, hj, by rw [h.copying.own_root, hvalue, Option.map_some], ?_⟩
  rw [Operation.renamed_inputs, List.getElem?_map, hw', Option.map_some]

/-- The renumbering at the end composes with what was copied. -/
theorem Assembled.rebuilt (hn : n ≠ 0) (hphis : ∀ i, PhiComplete g ρ a i) :
    Rebuilt g s g' (fun b ↦ (a.copy? b).map a.filled.toList.idxOf)
      (fun i ↦ (a.own ρ i).map (out.opsOf a.filled.toList).idxOf) ρ := by
  have hout := halike.sound h.copying.sound
  obtain ⟨-, hperm, -⟩ := Graph.of_reorder_ok hout hre
  have hren := Graph.reorder_renamed hout hre
  have hlt : ∀ {b c}, a.copy? b = some c → c < out.blockCount := fun hc ↦ by
    rw [halike.blockCount_eq]
    exact h.copying.copy_lt hc
  have hvlt : ∀ {i v}, a.own ρ i = some v → v < out.opCount := fun hv ↦ by
    rw [halike.opCount_eq]
    exact h.copying.value_lt (Assembler.own_eq_some.mp hv).2
  have hroot : (fun i ↦ (a.own ρ (ρ i)).map (out.opsOf a.filled.toList).idxOf) =
      fun i ↦ (a.value? i).map (out.opsOf a.filled.toList).idxOf :=
    funext fun i ↦ by rw [h.copying.own_root]
  exact {
    sound := hren.sound hout
    root := h.copying.root
    entry := by
      have hhead := h.first
      rw [if_neg hn, List.head?_eq_some_iff] at hhead
      obtain ⟨rest, hrest⟩ := hhead
      rw [h.entry, Option.map_some, hrest, List.idxOf_cons_self]
    block_lt := by
      intro b c hb
      obtain ⟨d, hd, -⟩ := Option.map_eq_some_iff.mp hb
      rw [← h.copying.blockMap_size]
      exact (Array.getElem?_eq_some_iff.mp (Option.join_eq_some_iff.mp hd)).1
    block_inj := by
      intro b b' c hb hb'
      obtain ⟨d, hd, rfl⟩ := Option.map_eq_some_iff.mp hb
      obtain ⟨d', hd', heq⟩ := Option.map_eq_some_iff.mp hb'
      exact h.copying.copy_inj hd (hren.block_inj (hlt hd') (hlt hd) heq ▸ hd')
    op_inj := by
      intro i i' v hi hi'
      obtain ⟨w, hw, rfl⟩ := Option.map_eq_some_iff.mp hi
      obtain ⟨w', hw', heq⟩ := Option.map_eq_some_iff.mp hi'
      exact h.copying.value_inj hw (hren.op_inj (hvlt hw') (hvlt hw) heq ▸ hw')
    span := by
      intro b c hb
      obtain ⟨d, hd, rfl⟩ := Option.map_eq_some_iff.mp hb
      rw [hren.span (hlt hd), halike.span_eq, h.copying.span hd, List.map_filterMap]
    kept := by
      intro b c i op hb hi hop hk
      obtain ⟨d, hd, rfl⟩ := Option.map_eq_some_iff.mp hb
      have hmem : d ∈ a.filled.toList := hperm.mem_iff.mpr (List.mem_range.mpr (hlt hd))
      obtain ⟨b', hb', hcomplete⟩ := h.filled d hmem
      rw [Option.isSome_map, h.copying.own_root]
      exact hcomplete (h.copying.copy_inj hd hb' ▸ hi) hop hk
    image := by
      intro i v op hv hop
      obtain ⟨w, hw, rfl⟩ := Option.map_eq_some_iff.mp hv
      obtain ⟨op', hop', himage⟩ := h.copying.image hw hop
      rw [← hops] at hop'
      rw [hroot]
      exact ⟨_, hren.op hop', himage.comp _ _⟩
    phi := h.phi_renumbered halike hops hre hphis
    merged := h.merged_renumbered halike hre }

/-- If phis are forwarded, those that are left outside of loop blocks have different inputs. -/
theorem Assembled.distinct (hf : fwd = true) {i v : OpIndex} {op op' : Operation} {b : BlockIndex}
    {blk : Block} (hv : (a.own ρ i).map (out.opsOf a.filled.toList).idxOf = some v)
    (hi : i ∈ (g.span b).toList) (hop : g.ops[i]? = some op) (hphi : op.isPhi = true)
    (hop' : g'.ops[v]? = some op') (hblk : g.blocks[b]? = some blk) (hloop : blk.isLoop = false) :
    ∀ x ∈ op'.inputs, ∃ y ∈ op'.inputs, y ≠ x := by
  have hout := halike.sound h.copying.sound
  obtain ⟨-, -, hval⟩ := Graph.of_reorder_ok hout hre
  have hren := Graph.reorder_renamed hout hre
  obtain ⟨w, hw, rfl⟩ := Option.map_eq_some_iff.mp hv
  have hlt : w < out.opCount := by
    rw [halike.opCount_eq]
    exact h.copying.value_lt (Assembler.own_eq_some.mp hw).2
  obtain ⟨op₁, hop₁, rfl⟩ := hren.op_of_renamed hlt hop'
  have hop₁' : a.output.ops[w]? = some op₁ := by rw [← hops]; exact hop₁
  rw [Operation.renamed_inputs, List.forall_mem_map]
  intro x hx
  have hxlt := hval hop₁ x hx
  obtain ⟨y, hy, hne⟩ := h.copying.distinct hf hw hi hop hphi hop₁' hblk hloop x hx
    (Nat.ne_of_lt (Nat.lt_of_lt_of_le hxlt hout.ops_le))
  exact ⟨_, List.mem_map_of_mem hy, fun heq ↦ hne (hren.op_inj (hval hop₁ y hy) hxlt heq)⟩

end

private theorem exists_rebuilt {g' : Graph} (hA : Liveness.Analysed g s)
    (h : g.rebuild (Graph.eliminators s fwd) = .ok g') :
    ∃ β ε ρ, Rebuilt g s g' β ε ρ ∧ (fwd = false → ρ = id) := by
  have hpos := hA.fit.wellFormed.pos
  obtain ⟨c, a₁, a₂, a, hmap, hcopy, hphis, hre⟩ := Build.yields_of_rebuild hpos h
  obtain ⟨ρ, hassembled, hcomplete⟩ := assembled_of_yields hA hmap hcopy hphis
  have hdem := demoted_demoteMerges a.output
  exact ⟨_, _, ρ, hassembled.rebuilt hdem.alike hdem.ops_eq hre (Nat.ne_of_gt hpos) hcomplete,
    hassembled.copying.plain⟩

/-- Dropping the dead operations of a graph gives a reduced graph. -/
theorem exists_reduced {g' : Graph} (hA : Liveness.Analysed g s)
    (h : g.rebuild (Graph.eliminators s false) = .ok g') : ∃ β ω, Reduced g s g' β ω := by
  obtain ⟨β, ω, ρ, hR, hρ⟩ := exists_rebuilt hA h
  obtain rfl := hρ rfl
  exact ⟨β, ω, hR.reduced⟩

end Flowgraph
