import Flowgraph.Proofs.Graph.Filling
import Flowgraph.Proofs.Rebuild.Outcome

/-!
# What is left of a graph

A graph that was rebuilt without its dead operations is described as a whole, whatever the order in
which the source defines its values: that the rebuilding went through is enough. `Remnant` puts
together which blocks and operations are left, how they are joined and laid out, and what kinds the
blocks have.

## What a success tells about order

A value that is used before it is defined would have stopped the rebuilding, at once or in the final
renumbering. So the operations of the result use earlier ones only, but for loop phis; and since the
result has the order of the source, so do the live operations of the source.
-/

namespace Flowgraph

open Liveness (Survives exits Thinned)

variable {g g' : Graph} {s : Liveness} {n : BlockIndex} {a a' : Assembler}

/-! ## What every step keeps

Rebuilding that goes through says something about the order of blocks and operations, which each
step keeps: survivors are filled in their order, and operations use values that are there. -/

/-- The copy in the course of a rebuilding: it is filled with survivors, in the order of the source,
and its operations use earlier ones. A value that did not exist shows as the handle that names
nothing. -/
structure Traced (g : Graph) (s : Liveness) (n : BlockIndex) (a : Assembler) : Prop where
  source_eq : a.source = g
  blockMap_size : a.blockMap.size = g.blockCount
  opMap_size : a.opMap.size = g.opCount
  name_eq : a.output.name = g.name
  copy_lt : ∀ {b c : BlockIndex}, a.copy? b = some c → c < a.output.blockCount
  value_lt : ∀ {i v : OpIndex}, a.value? i = some v → v < a.output.opCount
  survives : ∀ {b c : BlockIndex}, a.copy? b = some c → Survives g s b
  block : ∀ {b c : BlockIndex} {blk blk' : Block}, a.copy? b = some c → g.blocks[b]? = some blk →
    a.output.blocks[c]? = some blk' → blk'.kind = blk.kind ∧ blk'.deferred = blk.deferred
  filledBy : a.output.FilledBy a.filled.toList
  order : ∃ l, List.Forall₂ (fun b c ↦ a.copy? b = some c) l a.filled.toList ∧
    l.Pairwise (· < ·) ∧ ∀ b ∈ l, b < n
  inputs : ∀ {v : OpIndex} {op : Operation}, a.output.ops[v]? = some op →
    (∃ i, (v, i) ∈ a.waiting.toList) ∨ ∀ w ∈ op.inputs, w = noHandle ∨ w < v

private theorem traced_start (g : Graph) (s : Liveness) : Traced g s 0 (.start g) where
  source_eq := rfl
  blockMap_size := Array.size_replicate
  opMap_size := Array.size_replicate
  name_eq := rfl
  copy_lt := fun hc ↦ by simp at hc
  value_lt := fun hv ↦ by simp at hv
  survives := fun hc ↦ by simp at hc
  block := fun hc ↦ by simp at hc
  filledBy := Graph.filledBy_empty g.name
  order := ⟨[], .nil, .nil, fun b hb ↦ absurd hb List.not_mem_nil⟩
  inputs := fun hop ↦ absurd (Graph.lt_opCount hop) (Nat.not_lt_zero _)

namespace Traced

variable (h : Traced g s n a)

include h

theorem mapBlock {b c : BlockIndex} (hb : Survives g s b)
    (hy : Yields (Build.mapBlock b) a c a') : Traced g s n a' := by
  rcases Build.yields_mapBlock hy with ⟨-, rfl⟩ | ⟨hnone, hlt, rfl, blk, hblk, hroom, rfl⟩
  · exact h
  have hcount : (a.withCopy b blk).output.blockCount = a.output.blockCount + 1 := by
    rw [Assembler.withCopy, Graph.blockCount, Array.size_push]
    rfl
  refine { h with
    blockMap_size := Array.size_setIfInBounds.trans h.blockMap_size
    copy_lt := fun hc ↦ ?_, survives := fun hc ↦ ?_
    block := fun {b' c blk₀ blk'} hc hblk₀ hblk' ↦ ?_
    filledBy := h.filledBy.addBlock (Assembler.addBlock_eq_withCopy hroom)
    order := ?_ }
  · rw [hcount]
    rcases Assembler.copy?_withCopy_cases hlt hc with ⟨-, rfl⟩ | hc
    · exact Nat.lt_succ_self _
    · exact Nat.lt_succ_of_lt (h.copy_lt hc)
  · rcases Assembler.copy?_withCopy_cases hlt hc with ⟨rfl, -⟩ | hc
    · exact hb
    · exact h.survives hc
  · rcases Assembler.copy?_withCopy_cases hlt hc with ⟨rfl, rfl⟩ | hc
    · rw [h.source_eq] at hblk
      cases hblk.symm.trans hblk₀
      cases Assembler.withCopy_block_self.symm.trans hblk'
      exact ⟨rfl, rfl⟩
    · rw [Assembler.withCopy_block_of_lt (h.copy_lt hc)] at hblk'
      exact h.block hc hblk₀ hblk'
  · obtain ⟨l, hl, hsorted, hbelow⟩ := h.order
    exact ⟨l, hl.imp fun b' c hc ↦ Assembler.copy?_withCopy_mono hlt hnone hc, hsorted, hbelow⟩

/-- A new operation, which may be a loop phi that waits for its inputs. -/
theorem append {c : BlockIndex} {op : Operation} (waiting : Array (OpIndex × OpIndex))
    (hadd : a.output.addOperation op = .ok (a.output.appended c op))
    (hop : (∃ i, (a.output.opCount, i) ∈ waiting.toList) ∨
      ∀ w ∈ op.inputs, w = noHandle ∨ w < a.output.opCount)
    (hold : ∀ e ∈ a.waiting.toList, e ∈ waiting.toList) :
    Traced g s n { a with output := a.output.appended c op, waiting } := by
  refine { h with
    copy_lt := fun hc ↦ by
      rw [Graph.appended_blockCount]
      exact h.copy_lt hc
    value_lt := fun hv ↦ by
      rw [Graph.appended_opCount]
      exact Nat.lt_succ_of_lt (h.value_lt hv)
    block := fun {b d blk blk'} hd hblk hblk' ↦ ?_
    filledBy := h.filledBy.addOperation hadd
    inputs := fun {v op'} hop' ↦ ?_ }
  · rw [Graph.appended, Array.getElem?_modify] at hblk'
    split at hblk'
    · obtain ⟨blk₀, hblk₀, rfl⟩ := Option.map_eq_some_iff.mp hblk'
      have hsame := h.block hd hblk hblk₀
      exact hsame
    · exact h.block hd hblk hblk'
  · rcases Graph.appended_op_cases hop' with ⟨rfl, rfl⟩ | ⟨-, hop'⟩
    · exact hop
    · exact (h.inputs hop').imp_left (Exists.imp fun i hi ↦ hold _ hi)

theorem emit {op : Operation} (hop : ∀ w ∈ op.inputs, w = noHandle ∨ w < a.output.opCount)
    {v : OpIndex} (hy : Yields (Build.emit op) a v a') :
    Traced g s n a' ∧ v < a'.output.opCount := by
  obtain ⟨c, -, hadd, rfl, rfl⟩ := Build.yields_emit hy
  refine ⟨h.append a.waiting hadd (Or.inr hop) fun e he ↦ he, ?_⟩
  rw [Graph.appended_opCount]
  exact Nat.lt_succ_self _

private theorem rename {op op' : Operation} (hts : ∀ t ∈ op.successors, Survives g s t)
    (hy : Yields (op.rename Build.mapBlock Build.mapInput) a op' a') :
    Traced g s n a' ∧ ∀ w ∈ op'.inputs, w < a'.output.opCount := by
  obtain ⟨h', hren⟩ := Build.renamedTo_of_rename
    (fun t ht {_ _ _} h₁ hc ↦ h₁.mapBlock (hts t ht) hc) h hy
  refine ⟨h', fun w hw ↦ ?_⟩
  obtain ⟨k, hk, rfl⟩ := List.mem_iff_getElem.mp hw
  exact h'.value_lt (hren.inputs.get (hren.inputs.length_eq ▸ hk) hk)

private theorem copyOperation {i : OpIndex} {op : Operation} (hop : g.ops[i]? = some op)
    (hts : ∀ t ∈ op.successors, Survives g s t) {v : Option OpIndex}
    (hy : Yields (Build.copyOperation i) a v a') :
    Traced g s n a' ∧ ∀ w, v = some w → w < a'.output.opCount := by
  rcases Build.yields_copyOperation (by rw [h.source_eq]; exact hop) hy with
    ⟨hphi, inputs, complete, w, a₁, hin, hemit, rfl, rfl⟩ | ⟨-, op', w, a₁, hren, hemit, rfl⟩
  · obtain ⟨c, -, hadd, rfl, rfl⟩ := Build.yields_emit hemit
    cases complete with
    | true =>
      refine ⟨h.append a.waiting hadd (Or.inr fun w hw ↦ ?_) fun e he ↦ he, ?_⟩
      · obtain ⟨x, hx, rfl⟩ := List.mem_map.mp hw
        obtain ⟨j, rfl⟩ := Build.exists_value_of_phiInputs hin hx
        cases hj : a.value? j with
        | none => exact Or.inl rfl
        | some w => exact Or.inr (h.value_lt hj)
      · rintro w ⟨⟩
        change a.output.opCount < (a.output.appended c _).opCount
        rw [Graph.appended_opCount]
        exact Nat.lt_succ_self _
    | false =>
      refine ⟨h.append (a.waiting.push (a.output.opCount, i)) hadd
        (Or.inl ⟨i, by simp⟩) fun e he ↦ ?_, ?_⟩
      · rw [Array.toList_push]
        exact List.mem_append_left _ he
      · rintro w ⟨⟩
        change a.output.opCount < (a.output.appended c _).opCount
        rw [Graph.appended_opCount]
        exact Nat.lt_succ_self _
  · obtain ⟨h₁, hinputs⟩ := h.rename hts hren
    obtain ⟨h₂, hw⟩ := h₁.emit (fun w hw ↦ Or.inr (hinputs w hw)) hemit
    exact ⟨h₂, fun w' heq ↦ Option.some.inj heq ▸ hw⟩

private theorem copyOp (hA : Liveness.Analysed g s) {b : BlockIndex} (hb : Survives g s b)
    {i : OpIndex} (hi : i ∈ (g.span b).toList) {u : PUnit}
    (hy : Yields (Build.copyOp [.dropDead s.live s.rewrites] i) a u a') : Traced g s n a' := by
  obtain ⟨op, hop⟩ := Graph.exists_op (hA.sound.lt_of_mem_span hi)
  obtain ⟨v, a₁, hred, rfl⟩ := Build.yields_copyOp hy
  suffices hdone : Traced g s n a₁ ∧ ∀ w, v = some w → w < a₁.output.opCount by
    obtain ⟨h₁, hv⟩ := hdone
    refine { h₁ with
      opMap_size := Array.size_setIfInBounds.trans h₁.opMap_size
      value_lt := fun {j w} hw ↦ ?_ }
    rw [Assembler.value?_withValue (by rw [h₁.opMap_size]; exact Graph.lt_opCount hop)] at hw
    split at hw
    · exact hv w hw
    · exact h₁.value_lt hw
  rcases Build.yields_dropDead (by rw [h.source_eq]; exact hop) hred with
    ⟨t, c, w, a₂, ht, hmap, hemit, rfl⟩ | ⟨hnone, ⟨-, hnext⟩ | ⟨-, -, rfl, rfl⟩⟩
  · have ht : s.rewrite? i op = some t := ht
    have hend := Operation.isTerminator_of_isJump
      (Liveness.isJump_of_rewrite (s := s) (i := i) (by rw [ht]; rfl))
    have hsurvives : Survives g s t := hA.survives_of_exit hb (by
      rw [hA.exits_of_terminator hi hop hend, ht]
      exact List.mem_singleton_self t)
    obtain ⟨h₁, hw⟩ :=
      (h.mapBlock hsurvives hmap).emit (fun w hw ↦ absurd hw List.not_mem_nil) hemit
    exact ⟨h₁, fun w' heq ↦ Option.some.inj heq ▸ hw⟩
  · have hnone : s.rewrite? i op = none := hnone
    refine h.copyOperation hop (fun t ht ↦ hA.survives_of_exit hb ?_) hnext
    rw [hA.exits_of_terminator hi hop (Operation.isTerminator_of_mem_successors ht), hnone]
    exact ht
  · exact ⟨h, fun w hw ↦ by cases hw⟩

private theorem copyBlock (hA : Liveness.Analysed g s) {u : PUnit}
    (hy : Yields (Build.copyBlock [.dropDead s.live s.rewrites] n) a u a') :
    Traced g s (n + 1) a' := by
  obtain ⟨l, hl, hsorted, hbelow⟩ := h.order
  obtain ⟨w, a₀, hw, hcases⟩ := Build.yields_copyBlock hy
  have hw : Yields (Build.wanted n) a w a₀ := hw
  obtain ⟨rfl, hwanted⟩ := Build.yields_wanted hw
  rcases hcases with ⟨-, rfl⟩ | ⟨rfl, c, a₁, output, hmap, hbind, hops, -⟩
  · exact { h with order := ⟨l, hl, hsorted, fun b hb ↦ Nat.lt_succ_of_lt (hbelow b hb)⟩ }
  obtain ⟨c', hc'⟩ := Option.isSome_iff_exists.mp hwanted.symm
  have ha₁ : a₁ = a₀ ∧ a₀.copy? n = some c := by
    rcases Build.yields_mapBlock hmap with ⟨hc, heq⟩ | ⟨hnone, -⟩
    · exact ⟨heq, hc⟩
    · rw [hc'] at hnone
      cases hnone
  obtain ⟨rfl, hc⟩ := ha₁
  have hfilled := h.filledBy.bind hbind
  rw [← Array.toList_push] at hfilled
  obtain ⟨-, -, rfl⟩ := Graph.bind_eq_ok hbind
  have hbegun : Traced g s (n + 1) { a₁ with
      output := { a₁.output with bound := some c }
      filled := a₁.filled.push c
      current := some n } := by
    refine { h with filledBy := hfilled, order := ⟨l ++ [n], ?_, ?_, fun b hb ↦ ?_⟩ }
    · rw [Array.toList_push]
      exact List.rel_append hl (.cons hc .nil)
    · rw [List.pairwise_append]
      refine ⟨hsorted, List.pairwise_singleton _ _, fun b hb b' hb' ↦ ?_⟩
      exact List.mem_singleton.mp hb' ▸ hbelow b hb
    · rcases List.mem_append.mp hb with hb | hb
      · exact Nat.lt_succ_of_lt (hbelow b hb)
      · exact List.mem_singleton.mp hb ▸ Nat.lt_succ_self n
  refine forM_keeps (P := Traced g s (n + 1)) (fun i hi {_ _} hs hstep ↦
    hs.copyOp hA (h.survives hc) (by rwa [h.source_eq] at hi) hstep) hbegun hops

omit h in
private theorem copyBlocks (hA : Liveness.Analysed g s) {u : PUnit} : ∀ {k n : Nat} {a : Assembler},
    Traced g s n a →
    Yields ((List.range' n k).forM (Build.copyBlock [.dropDead s.live s.rewrites])) a u a' →
    Traced g s (n + k) a' := by
  intro k
  induction k with
  | zero =>
    intro n a h hy
    rw [List.range'_zero, yields_forM_nil] at hy
    rw [hy]
    exact h
  | succ k ih =>
    intro n a h hy
    rw [List.range'_succ, yields_forM_cons] at hy
    obtain ⟨a₁, hn, hy⟩ := hy
    rw [Nat.add_succ, ← Nat.succ_add]
    exact ih (h.copyBlock hA hn) hy

private theorem completePhi {v i : OpIndex} (hmem : (v, i) ∈ a.waiting.toList) {u : PUnit}
    (hy : Yields (Build.completePhi v i) a u a') :
    Traced g s n a' ∧ a'.waiting = a.waiting := by
  obtain ⟨inputs, -, -, hset, ha'⟩ := Build.yields_completePhi hy
  have halike := Graph.setInputs_alike hset
  have hout := Graph.setInputs_eq_ok hset
  rw [ha']
  refine ⟨{ h with
    name_eq := by rw [hout]; exact h.name_eq
    copy_lt := fun hc ↦ by rw [halike.blockCount_eq]; exact h.copy_lt hc
    value_lt := fun hv ↦ by rw [halike.opCount_eq]; exact h.value_lt hv
    block := fun hc hblk hblk' ↦ h.block hc hblk (by rw [hout] at hblk'; exact hblk')
    filledBy := h.filledBy.alike halike
    inputs := fun {w op} hop ↦ ?_ }, rfl⟩
  rcases Graph.setInputs_op_cases hset hop with ⟨rfl, -⟩ | ⟨-, hop⟩
  · exact Or.inl ⟨i, hmem⟩
  · exact h.inputs hop

end Traced

private theorem traced_of_yields (hA : Liveness.Analysed g s) {c : BlockIndex} {a₁ a₂ : Assembler}
    (hmap : Yields (Build.mapBlock 0) (.start g) c a₁)
    (hcopy : Yields ((List.range g.blockCount).forM
      (Build.copyBlock [.dropDead s.live s.rewrites])) a₁ ⟨⟩ a₂)
    (hphis : Yields (a₂.waiting.toList.forM fun e ↦ Build.completePhi e.1 e.2) a₂ ⟨⟩ a) :
    Traced g s g.blockCount a := by
  rw [List.range_eq_range'] at hcopy
  have h₂ := ((traced_start g s).mapBlock .entry hmap).copyBlocks hA hcopy
  rw [Nat.zero_add] at h₂
  refine (forM_keeps (P := fun a ↦ Traced g s g.blockCount a ∧ a.waiting = a₂.waiting)
    (fun e he {_ _} hs hstep ↦ ?_) ⟨h₂, rfl⟩ hphis).1
  obtain ⟨h₃, hsame⟩ := hs.1.completePhi (by rw [hs.2]; exact he) hstep
  exact ⟨h₃, hsame.trans hs.2⟩

/-! ## What is left -/

/-- `g'` is what is left of `g`. Block `b` of `g` has become block `β b`, and operation `i` has
become operation `ω i`. -/
structure Remnant (g : Graph) (s : Liveness) (g' : Graph) (β : BlockIndex → Option BlockIndex)
    (ω : OpIndex → Option OpIndex) : Prop where
  reduced : Reduced g s g' β ω
  thinned : Thinned g s g' β
  name_eq : g'.name = g.name
  bound_eq : g'.bound = none
  laid : g'.Laid
  edges_eq : g'.edges.toList = g'.recordedEdges
  block : ∀ {b c : BlockIndex} {blk blk' : Block}, β b = some c → g.blocks[b]? = some blk →
    g'.blocks[c]? = some blk' → blk'.deferred = blk.deferred ∧ (blk'.kind = blk.kind ∨
      blk.isMerge = true ∧ blk'.kind = .plain ∧ (g'.predecessors c).length = 1 ∧
        ∀ i ∈ (g'.span c).toList, g'.ops[i]?.any Operation.isPhi = false)
  /-- A merge that is entered once has a phi. -/
  merge : ∀ {c : BlockIndex} {blk' : Block}, g'.blocks[c]? = some blk' → blk'.isMerge = true →
    (g'.predecessors c).length = 1 → ∃ i ∈ (g'.span c).toList, g'.ops[i]?.any Operation.isPhi = true
  inputs : ∀ {c : BlockIndex} {v : OpIndex} {op : Operation} {blk : Block},
    v ∈ (g'.span c).toList → g'.ops[v]? = some op → g'.blocks[c]? = some blk →
    (op.isPhi && blk.isLoop) = false → ∀ w ∈ op.inputs, w < v

private theorem Reduced.map_exits {β : BlockIndex → Option BlockIndex}
    {ω : OpIndex → Option OpIndex} (h : Reduced g s g' β ω) (hA : Liveness.Analysed g s)
    {b c : BlockIndex} (hb : β b = some c) : (exits g s b).map β = (g'.successors c).map some := by
  obtain ⟨i, op, hterm, hi, hop, hend⟩ := hA.determined.exists_terminator (h.block_lt hb)
  obtain ⟨v, hv⟩ := Option.isSome_iff_exists.mp
    (h.kept hb hi hop (kept_of_isTerminator hA hi hop hend))
  obtain ⟨op', hop', himage⟩ := h.image hv hop
  rw [hA.exits_of_terminator hi hop hend,
    Graph.successors_of_terminator (h.terminator_eq hb hterm hv) hop']
  cases himage with
  | rewritten ht hc =>
    simp only [ht, List.map_singleton, hc]
    rfl
  | phi hphi =>
    rw [Operation.isTerminator_of_isPhi hphi] at hend
    cases hend
  | renamed hnone _ _ hren =>
    rw [hnone]
    exact hren.map_successors

private theorem Traced.lt_iff (h : Traced g s n a)
    (hinj : ∀ {b b' c : BlockIndex}, a.copy? b = some c → a.copy? b' = some c → b = b')
    {b b' c c' : BlockIndex} (hb : a.copy? b = some c) (hb' : a.copy? b' = some c')
    (hc : c ∈ a.filled.toList) (hc' : c' ∈ a.filled.toList) :
    b < b' ↔ a.filled.toList.idxOf c < a.filled.toList.idxOf c' := by
  obtain ⟨l, hl, hsorted, -⟩ := h.order
  have hget : ∀ {b c}, a.copy? b = some c → (hc : c ∈ a.filled.toList) →
      ∃ hlt : a.filled.toList.idxOf c < l.length, l[a.filled.toList.idxOf c] = b := by
    intro b c hb hc
    have hlt := List.idxOf_lt_length_of_mem hc
    have hcopy := hl.get (hl.length_eq ▸ hlt) hlt
    rw [List.get_eq_getElem, List.get_eq_getElem, List.getElem_idxOf] at hcopy
    exact ⟨hl.length_eq ▸ hlt, hinj hcopy hb⟩
  rw [List.pairwise_iff_getElem] at hsorted
  obtain ⟨hlt, hbl⟩ := hget hb hc
  obtain ⟨hlt', hbl'⟩ := hget hb' hc'
  constructor
  · intro hbb
    by_contra hle
    rcases Nat.eq_or_lt_of_le (Nat.not_lt.mp hle) with heq | hgt
    · refine Nat.lt_irrefl b ?_
      calc b < b' := hbb
        _ = b := by rw [← hbl, ← hbl']; simp only [heq]
    · have := hsorted _ _ hlt' hlt hgt
      lia
  · intro hidx
    have := hsorted _ _ hlt hlt' hidx
    lia

/-! ## The final renumbering

The result is the draft in the order in which its blocks were filled, and its merges with one edge
have become plain where they have no phi. -/

/-- A copy that is complete, and the graph that it becomes when its blocks are renumbered. -/
structure Concluded (g : Graph) (s : Liveness) (a : Assembler) (g' : Graph) : Prop where
  assembled : Assembled g s false id g.blockCount a
  complete : ∀ i, PhiComplete g id a i
  traced : Traced g s g.blockCount a
  reorder_eq : a.output.demoteMerges.reorder a.filled.toList = .ok g'

namespace Concluded

variable (h : Concluded g s a g')

include h

theorem filledBy : a.output.demoteMerges.FilledBy a.filled.toList :=
  h.traced.filledBy.alike (demoted_demoteMerges a.output).alike

theorem renamed : Graph.Renamed a.output.demoteMerges g' a.filled.toList.idxOf
    (a.output.demoteMerges.opsOf a.filled.toList).idxOf :=
  Graph.reorder_renamed h.filledBy.sound h.reorder_eq

theorem perm : a.filled.toList.Perm (List.range a.output.demoteMerges.blockCount) :=
  (Graph.of_reorder_ok h.filledBy.sound h.reorder_eq).2.1

theorem copy_lt {b c : BlockIndex} (hb : a.copy? b = some c) :
    c < a.output.demoteMerges.blockCount := by
  rw [(demoted_demoteMerges a.output).alike.blockCount_eq]
  exact h.traced.copy_lt hb

private theorem mem_filled {b c : BlockIndex} (hb : a.copy? b = some c) : c ∈ a.filled.toList :=
  h.perm.mem_iff.mpr (List.mem_range.mpr (h.copy_lt hb))

/-- A block of the result copies one of the source. -/
theorem exists_copied {c : BlockIndex} (hc : c < g'.blockCount) :
    ∃ b d, a.copy? b = some d ∧ a.filled.toList.idxOf d = c := by
  obtain ⟨d, hd, rfl⟩ := h.renamed.block_surj (h.renamed.blockCount_eq ▸ hc)
  obtain ⟨b, hb, -⟩ := h.assembled.filled d (h.perm.mem_iff.mpr (List.mem_range.mpr hd))
  exact ⟨b, d, hb, rfl⟩

/-- What has become of a block. -/
theorem block {b d : BlockIndex} {blk blk' : Block} (hd : a.copy? b = some d)
    (hblk : g.blocks[b]? = some blk) (hblk' : g'.blocks[a.filled.toList.idxOf d]? = some blk') :
    blk'.deferred = blk.deferred ∧ (blk'.kind = blk.kind ∨
      blk.isMerge = true ∧ blk'.kind = .plain ∧
        (g'.predecessors (a.filled.toList.idxOf d)).length = 1 ∧
        ∀ i ∈ (g'.span (a.filled.toList.idxOf d)).toList,
          g'.ops[i]?.any Operation.isPhi = false) := by
  have hdem := demoted_demoteMerges a.output
  have hout := h.filledBy.sound
  obtain ⟨blk₂, hblk₂⟩ := Graph.exists_block (h.copy_lt hd)
  obtain ⟨blk₃, hblk₃, hkind₃, hdeferred₃, -⟩ := h.renamed.block hblk₂
  cases hblk₃.symm.trans hblk'
  obtain ⟨blk₁, hblk₁, hspan, hdeferred, hkind⟩ := hdem.block hblk₂
  obtain ⟨hkind₁, hdeferred₁⟩ := h.traced.block hd hblk hblk₁
  rw [hdeferred₃, hdeferred, hdeferred₁, hkind₃, h.renamed.predecessors_eq hout (h.copy_lt hd),
    List.length_map, hdem.alike.predecessors_eq, h.renamed.span (h.copy_lt hd), ← hkind₁]
  refine ⟨rfl, hkind.imp_right fun ⟨hmerge, hplain, hlen, hphi⟩ ↦ ⟨?_, hplain, hlen, ?_⟩⟩
  · rwa [Block.isMerge, ← hkind₁, ← Block.isMerge]
  · intro i hi
    obtain ⟨j, hj, rfl⟩ := List.mem_map.mp hi
    obtain ⟨op, hop⟩ := Graph.exists_op (hout.lt_of_mem_span hj)
    rw [h.renamed.op hop, Option.any_some, Operation.renamed_isPhi]
    rw [Graph.span_of_block hblk₂, hspan] at hj
    exact hphi hj (by rwa [← hdem.ops_eq])

private theorem merge {c : BlockIndex} {blk' : Block} (hblk' : g'.blocks[c]? = some blk')
    (hmerge : blk'.isMerge = true) (hlen : (g'.predecessors c).length = 1) :
    ∃ i ∈ (g'.span c).toList, g'.ops[i]?.any Operation.isPhi = true := by
  have hout := h.filledBy.sound
  obtain ⟨hdem, hmerges⟩ := demoteMerges_spec a.output
  obtain ⟨b, d, hd, rfl⟩ := h.exists_copied (Graph.lt_blockCount hblk')
  obtain ⟨blk, hblk⟩ := Graph.exists_block (h.copy_lt hd)
  obtain ⟨blk₁, hblk₁, hkind, -⟩ := h.renamed.block hblk
  cases hblk₁.symm.trans hblk'
  rw [h.renamed.predecessors_eq hout (h.copy_lt hd), List.length_map,
    hdem.alike.predecessors_eq] at hlen
  rw [Block.isMerge, hkind, ← Block.isMerge] at hmerge
  obtain ⟨i, op, hi, hop, hphi⟩ := hmerges hblk hmerge hlen
  rw [← hdem.ops_eq] at hop
  rw [← Graph.span_of_block hblk] at hi
  rw [h.renamed.span (h.copy_lt hd)]
  refine ⟨_, List.mem_map_of_mem hi, ?_⟩
  rw [h.renamed.op hop, Option.any_some, Operation.renamed_isPhi]
  exact hphi

variable (hA : Liveness.Analysed g s)

include hA

theorem reduced : Reduced g s g' (fun b ↦ (a.copy? b).map a.filled.toList.idxOf)
    (fun i ↦ (a.value? i).map (a.output.demoteMerges.opsOf a.filled.toList).idxOf) := by
  have hdem := demoted_demoteMerges a.output
  have hrebuilt := h.assembled.rebuilt hdem.alike hdem.ops_eq h.reorder_eq
    (Nat.ne_of_gt hA.fit.wellFormed.pos) h.complete
  rw [Assembler.own_id] at hrebuilt
  exact hrebuilt.reduced

theorem thinned : Thinned g s g' fun b ↦ (a.copy? b).map a.filled.toList.idxOf := by
  have hreduced := h.reduced hA
  have hsome : ∀ {b c}, (a.copy? b).map a.filled.toList.idxOf = some c → ∃ d, a.copy? b = some d ∧
    a.filled.toList.idxOf d = c := Option.map_eq_some_iff.mp
  refine {
    sound := hreduced.sound
    isSome_iff := fun {b} ↦ ⟨fun hb ↦ ?_, fun hb ↦ ?_⟩
    lt_iff := fun hb hb' ↦ ?_
    block_lt := fun hb ↦ ?_
    surj := fun hc ↦ ?_
    entry := hreduced.entry
    successors := hreduced.map_exits hA
    isLoop := fun {b c blk blk'} hb hblk hblk' ↦ ?_ }
  · obtain ⟨c, hc⟩ := Option.isSome_iff_exists.mp hb
    obtain ⟨d, hd, -⟩ := hsome hc
    exact h.traced.survives hd
  -- by induction on how the block survives: the exits of a copied block are copied
  · induction hb with
    | entry =>
      have hentry := hreduced.entry
      rw [hentry, Option.isSome_some]
    | exit _ _ ht ih =>
      obtain ⟨c, hc⟩ := Option.isSome_iff_exists.mp ih
      have hmem := List.mem_map_of_mem (f := fun b ↦ (a.copy? b).map a.filled.toList.idxOf) ht
      rw [hreduced.map_exits hA hc] at hmem
      obtain ⟨c', -, hc'⟩ := List.mem_map.mp hmem
      rw [← hc', Option.isSome_some]
  · obtain ⟨d, hd, rfl⟩ := hsome hb
    obtain ⟨d', hd', rfl⟩ := hsome hb'
    exact h.traced.lt_iff h.assembled.copying.copy_inj hd hd' (h.mem_filled hd) (h.mem_filled hd')
  · obtain ⟨d, hd, rfl⟩ := hsome hb
    rw [h.renamed.blockCount_eq]
    exact h.renamed.block_lt (h.copy_lt hd)
  · obtain ⟨b, d, hd, rfl⟩ := h.exists_copied hc
    exact ⟨b, by rw [hd, Option.map_some]⟩
  · obtain ⟨d, hd, rfl⟩ := hsome hb
    obtain ⟨-, hkind | ⟨hmerge, hplain, -⟩⟩ := h.block hd hblk hblk'
    · rw [Block.isLoop, Block.isLoop, hkind]
    · have hkind : blk.kind = .merge := by simpa [Block.isMerge] using hmerge
      simp [Block.isLoop, hplain, hkind]

private theorem inputs {c : BlockIndex} {v : OpIndex} {op : Operation} {blk : Block}
    (hv : v ∈ (g'.span c).toList) (hop : g'.ops[v]? = some op) (hblk : g'.blocks[c]? = some blk)
    (hphi : (op.isPhi && blk.isLoop) = false) : ∀ w ∈ op.inputs, w < v := by
  have hdem := demoted_demoteMerges a.output
  have hlt : v < a.output.demoteMerges.opCount := h.renamed.opCount_eq ▸ Graph.lt_opCount hop
  have hsame := h.filledBy.idxOf_opsOf hlt
  obtain ⟨op₀, hop₀, rfl⟩ := h.renamed.op_of_renamed hlt (by rw [hsame]; exact hop)
  have hvalues := (Graph.of_reorder_ok h.filledBy.sound h.reorder_eq).2.2 hop₀
  rw [hdem.ops_eq] at hop₀
  rcases h.traced.inputs hop₀ with ⟨i, hwait⟩ | hearlier
  · -- an operation that waited is a phi in a loop block
    obtain ⟨hi, ⟨op₁, hop₁, hphi₁⟩, b, blk₁, hib, hblk₁, hloop⟩ :=
      h.assembled.copying.of_waiting hwait
    obtain ⟨b', d, hib', -, hd⟩ := h.assembled.copying.owner (Assembler.own_eq_some.mp hi).2
    obtain rfl := hA.sound.span_disjoint hib hib'
    obtain ⟨op₂, hop₂, himage⟩ := h.assembled.copying.image hi hop₁
    cases hop₀.symm.trans hop₂
    have hmem : v ∈ (g'.span (a.filled.toList.idxOf d)).toList := by
      rw [h.renamed.span (h.copy_lt hd), hdem.alike.span_eq]
      exact List.mem_map.mpr ⟨v, h.assembled.copying.value_mem hi hib hd, hsame⟩
    obtain rfl := (h.renamed.sound h.filledBy.sound).span_disjoint hv hmem
    have hkind := (h.thinned hA).isLoop (by rw [hd, Option.map_some]) hblk₁ hblk
    rw [Operation.renamed_isPhi, Operation.isPhi, himage.action_of_isPhi hphi₁, ← Operation.isPhi,
      hphi₁, hkind, hloop] at hphi
    cases hphi
  · intro w hw
    obtain ⟨w₀, hw₀, rfl⟩ := List.mem_map.mp hw
    rw [h.filledBy.idxOf_opsOf (hvalues w₀ hw₀)]
    refine (hearlier w₀ hw₀).resolve_left (Nat.ne_of_lt ?_)
    exact Nat.lt_of_lt_of_le (hvalues w₀ hw₀) h.filledBy.sound.ops_le

end Concluded

/-- What is left, if the rebuilding went through. -/
theorem exists_remnant (hA : Liveness.Analysed g s)
    (h : g.rebuild (Graph.eliminators s false) = .ok g') : ∃ β ω, Remnant g s g' β ω := by
  obtain ⟨c₀, a₁, a₂, a, hmap, hcopy, hphis, hre⟩ :=
    Build.yields_of_rebuild hA.fit.wellFormed.pos h
  obtain ⟨ρ, hassembled, hcomplete⟩ := assembled_of_yields hA hmap hcopy hphis
  obtain rfl := hassembled.copying.plain rfl
  have hdone : Concluded g s a g' :=
    ⟨hassembled, hcomplete, traced_of_yields hA hmap hcopy hphis, hre⟩
  refine ⟨_, _, hdone.reduced hA, hdone.thinned hA, ?_, hdone.renamed.bound_eq', ?_,
    hdone.filledBy.reorder hre, fun hb hblk hblk' ↦ ?_, hdone.merge, hdone.inputs hA⟩
  · rw [hdone.renamed.name_eq, (demoted_demoteMerges a.output).name_eq, hdone.traced.name_eq]
  · refine Graph.reorder_laid hdone.filledBy.sound (fun {b blk} hblk ↦ ?_) hre
    exact hdone.filledBy.isSome_span hdone.renamed.bound_eq
      (hdone.perm.mem_iff.mpr (List.mem_range.mpr (Graph.lt_blockCount hblk))) hblk
  · obtain ⟨d, hd, rfl⟩ := Option.map_eq_some_iff.mp hb
    exact hdone.block hd hblk hblk'

/-! ## Operations of the result

Every operation of the result comes from one of the source, and these are in the same order. -/

namespace Remnant

variable {β : BlockIndex → Option BlockIndex} {ω : OpIndex → Option OpIndex}
  (h : Remnant g s g' β ω)

include h

theorem value_mem {b c : BlockIndex} (hb : β b = some c) {i v : OpIndex}
    (hi : i ∈ (g.span b).toList) (hv : ω i = some v) : v ∈ (g'.span c).toList := by
  rw [h.reduced.span hb]
  exact List.mem_filterMap.mpr ⟨i, hi, hv⟩

/-- Every operation of the result is the image of one of the source. -/
theorem exists_preimage (hg : g.Sound) {v : OpIndex} {op' : Operation}
    (hop' : g'.ops[v]? = some op') :
    ∃ c b i op, v ∈ (g'.span c).toList ∧ i ∈ (g.span b).toList ∧ g.ops[i]? = some op ∧
      ω i = some v ∧ Image s β ω i op op' := by
  obtain ⟨c, hc⟩ := h.thinned.sound.exists_owner (Graph.lt_opCount hop')
  obtain ⟨b, hb⟩ := h.thinned.surj (Graph.lt_blockCount_of_mem_span hc)
  have hv := hc
  rw [h.reduced.span hb, List.mem_filterMap] at hv
  obtain ⟨i, hi, hv⟩ := hv
  obtain ⟨op, hop⟩ := Graph.exists_op (hg.lt_of_mem_span hi)
  obtain ⟨op₁, hop₁, himage⟩ := h.reduced.image hv hop
  cases hop₁.symm.trans hop'
  exact ⟨c, b, i, op, hc, hi, hop, hv, himage⟩

private theorem value_lt_value {b d c e : BlockIndex} (hb : β b = some c) (hd : β d = some e)
    {i j v w : OpIndex} (hi : i ∈ (g.span b).toList) (hj : j ∈ (g.span d).toList)
    (hv : ω i = some v) (hw : ω j = some w) (hlt : b < d ∨ b = d ∧ i < j) : v < w := by
  rcases hlt with hlt | ⟨rfl, hlt⟩
  · by_contra hle
    have hec := h.laid.block_le h.thinned.sound (h.value_mem hd hj hw) (h.value_mem hb hi hv)
      (Nat.not_lt.mp hle)
    exact absurd ((h.thinned.lt_iff hb hd).mp hlt) (Nat.not_lt.mpr hec)
  · have hsorted : ((g'.span c).toList).Pairwise (· < ·) := List.pairwise_lt_range'
    rw [h.reduced.span hb, List.pairwise_filterMap, Span.toList,
      List.pairwise_iff_getElem] at hsorted
    obtain ⟨k, hk, rfl⟩ := List.mem_iff_getElem.mp hi
    obtain ⟨m, hm, rfl⟩ := List.mem_iff_getElem.mp hj
    have hkm : k < m := by
      simp only [Span.toList, List.getElem_range'] at hlt
      lia
    exact hsorted k m hk hm hkm v hv w hw

variable (hA : Liveness.Analysed g s)

include hA

/-- What is live is left. -/
theorem exists_value {b : BlockIndex} {i : OpIndex} (hi : i ∈ (g.span b).toList)
    (hlive : s.isLive i = true) : ∃ c v, β b = some c ∧ ω i = some v := by
  obtain ⟨c, hc⟩ := h.thinned.exists_of_survives
    (hA.survives_of_solid (Graph.lt_blockCount_of_mem_span hi) (hA.solid_of_isLive hi hlive))
  obtain ⟨op, hop⟩ := Graph.exists_op (hA.sound.lt_of_mem_span hi)
  obtain ⟨v, hv⟩ := Option.isSome_iff_exists.mp (h.reduced.kept hc hi hop (Or.inl hlive))
  exact ⟨c, v, hc, hv⟩

/-- A block with a live phi keeps its predecessors, so that the phi keeps all of its inputs. -/
private theorem exists_phi_input {b : BlockIndex} {i v : OpIndex} {op op' : Operation}
    (hi : i ∈ (g.span b).toList) (hop : g.ops[i]? = some op) (hphi : op.isPhi = true)
    (hlive : s.isLive i = true) (hv : ω i = some v) (hop' : g'.ops[v]? = some op') {j : OpIndex}
    (hj : j ∈ op.inputs) : ∃ w ∈ op'.inputs, ω j = some w := by
  obtain ⟨c, -, hc, -⟩ := h.exists_value hA hi hlive
  obtain ⟨blk, hblk⟩ := Graph.exists_block (Graph.lt_blockCount_of_mem_span hi)
  have harity := (hA.fit.wellFormed.matched hblk (Graph.span_of_block hblk ▸ hi) hop hphi).2
  obtain ⟨k, hk⟩ := List.mem_iff_getElem?.mp hj
  have hklt := (List.getElem?_eq_some_iff.mp hk).1
  rw [harity] at hklt
  have hp := List.getElem?_eq_getElem hklt
  generalize (g.predecessors b)[k] = p at hp
  obtain ⟨p', r, q, hp', hslot, hq⟩ :=
    h.thinned.exists_slot hA hc (hA.stays_of_livePhi hi hop hphi hlive) hp
  obtain ⟨k', j', w, hk', hj', hw, hinput⟩ := h.reduced.phi hv hi hop hphi hop' hc hp' hq
  cases hslot.symm.trans hk'
  cases hk.symm.trans hj'
  exact ⟨w, List.mem_of_getElem? hinput, hw⟩

/-- A live operation that is not rewritten uses what is left of its inputs. -/
theorem exists_input {b : BlockIndex} {i v : OpIndex} {op op' : Operation}
    (hi : i ∈ (g.span b).toList) (hop : g.ops[i]? = some op) (hnone : s.rewrite? i op = none)
    (hlive : s.isLive i = true) (hv : ω i = some v) (hop' : g'.ops[v]? = some op') {j : OpIndex}
    (hj : j ∈ op.inputs) : ∃ w ∈ op'.inputs, ω j = some w := by
  obtain ⟨op₁, hop₁, himage⟩ := h.reduced.image hv hop
  cases hop'.symm.trans hop₁
  cases himage with
  | rewritten ht =>
    rw [hnone] at ht
    cases ht
  | phi hphi => exact h.exists_phi_input hA hi hop hphi hlive hv hop' hj
  | renamed _ _ _ hren =>
    obtain ⟨k, hk, rfl⟩ := List.mem_iff_getElem.mp hj
    have hlt := hren.inputs.length_eq ▸ hk
    exact ⟨_, List.getElem_mem hlt, hren.inputs.get hk hlt⟩

/-- Since the result uses values after they are defined, so does the source, as far as it is
live. -/
theorem ready : Liveness.Ready g s := by
  intro i op b blk hi hop hblk hnone hlive hphi j hj d hd
  obtain ⟨c, v, hc, hv⟩ := h.exists_value hA hi hlive
  obtain ⟨e, w, he, hw⟩ := h.exists_value hA hd (hA.isLive_of_input hop hlive hj)
  obtain ⟨op', hop', himage⟩ := h.reduced.image hv hop
  obtain ⟨w', hmem, hw'⟩ := h.exists_input hA hi hop hnone hlive hv hop' hj
  cases hw.symm.trans hw'
  obtain ⟨blk', hblk'⟩ := Graph.exists_block (h.thinned.block_lt hc)
  have hsame : op'.isPhi = op.isPhi := by
    cases himage with
    | rewritten ht =>
      rw [hnone] at ht
      cases ht
    | phi _ _ haction => rw [Operation.isPhi, haction, ← Operation.isPhi]
    | renamed _ _ _ hren => exact hren.sort_eq.2.1
  have hwv : w < v := h.inputs (h.value_mem hc hi hv) hop' hblk'
    (by rw [hsame, h.thinned.isLoop hc hblk hblk', hphi]) w hmem
  by_contra hlater
  have hcases : (b < d ∨ b = d ∧ i < j) ∨ b = d ∧ i = j := by lia
  rcases hcases with hlt | ⟨rfl, rfl⟩
  · exact Nat.lt_asymm hwv (h.value_lt_value hc he hi hd hv hw hlt)
  · cases hv.symm.trans hw
    exact Nat.lt_irrefl _ hwv

omit hA in
/-- The result uses values after they are defined. -/
theorem definedFirst : g'.DefinedFirst := by
  have hg := h.thinned.sound
  intro v _ op hop c hc blk hblk hphi w hw e he
  have hv := (hg.mem_span_iff v c).mpr hc
  have hlt := h.inputs hv hop hblk hphi w hw
  have hle := h.laid.block_le hg ((hg.mem_span_iff w e).mpr he) hv (Nat.le_of_lt hlt)
  exact (Nat.lt_or_eq_of_le hle).imp_right fun heq ↦ ⟨heq, hlt⟩

omit hA in
/-- No removed operation is left. -/
theorem deadUnused (hA : Liveness.Stabilized g s) : g'.DeadUnused := by
  intro _ _ w _ op' hop' hdead
  obtain ⟨-, b, i, op, -, hi, hop, -, himage⟩ := h.exists_preimage hA.sound hop'
  cases himage with
  | rewritten => cases hdead
  | phi hphi _ haction =>
    rw [Operation.isPhi, ← haction, hdead] at hphi
    cases hphi
  | renamed _ hlive _ hren =>
    refine hA.not_dead hop hlive ?_
    rcases hren.action_cases with
      ⟨t, c, -, -, haction⟩ | ⟨t, f, c, d, hint, -, -, -, haction⟩ | ⟨heq, -⟩
    · cases hdead.symm.trans haction
    · cases hdead.symm.trans haction
    · exact heq.symm.trans hdead

end Remnant

end Flowgraph
