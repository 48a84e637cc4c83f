import Flowgraph.GraphFile.Binary
import Flowgraph.Proofs.GraphFile.Storable

/-!
# Binary graph files bring a graph back

The record of a graph holds its blocks and operations in order and no edges. Reading it again adds
the blocks, and then binds block after block and adds the operations of each. For a tidy graph
none of the checks on the way stops the reading, and what comes out is the restored graph: the same
blocks and operations, with the edges in the order of the operations.
-/

namespace Flowgraph

/-! ## Folds that go through

Reading is a fold over records that can fail. Where each record is known to be accepted and to lead
from one known state to the next, the fold leads from the first state to the last. -/

theorem foldlM_mapError {ε ε' α β : Type} {f : β → α → Except ε β} {e : ε → ε'} :
    ∀ {l : List α} {b : β},
      l.foldlM (fun b a ↦ (f b a).mapError e) b = (l.foldlM f b).mapError e
  | [], _ => rfl
  | a :: l, b => by
    rw [List.foldlM_cons, List.foldlM_cons]
    cases f b a with
    | error e' => rfl
    | ok b' => exact foldlM_mapError

theorem foldlM_congr {ε α β γ : Type} {f : β → α → Except ε β} {r : β → γ → Except ε β}
    {h : α → γ} : ∀ {l : List α} {b : β}, (∀ a ∈ l, ∀ b, f b a = r b (h a)) →
      l.foldlM f b = (l.map h).foldlM r b
  | [], _, _ => rfl
  | a :: l, b, hstep => by
    rw [List.forall_mem_cons] at hstep
    rw [List.map_cons, List.foldlM_cons, List.foldlM_cons, hstep.1]
    congr 1
    exact funext fun b' ↦ foldlM_congr hstep.2

private theorem foldlM_of_states {ε α β : Type} {f : β → α → Except ε β} {S : Nat → β} :
    ∀ {l : List α} {k : Nat},
      (∀ {i : Nat} {a : α}, l[i]? = some a → f (S (k + i)) a = .ok (S (k + i + 1))) →
      l.foldlM f (S k) = .ok (S (k + l.length))
  | [], _, _ => rfl
  | a :: l, k, hstep => by
    have hfirst := hstep (i := 0) List.getElem?_cons_zero
    rw [Nat.add_zero] at hfirst
    rw [List.foldlM_cons, hfirst, ok_bind, foldlM_of_states (l := l) (k := k + 1)]
    · rw [List.length_cons, Nat.add_right_comm, Nat.add_assoc]
    · intro i b hb
      rw [Nat.add_right_comm k 1 i]
      exact hstep (by rw [List.getElem?_cons_succ]; exact hb)

namespace Binary

/-! ## Codes

Every kind, hint and representation has a code of one byte, and reading the code gives it back. -/

private theorem ofCode_code_kind {k : BlockKind} (hk : ∀ c, k ≠ .reserved c) :
    ¬3 < k.code ∧ BlockKind.ofCode k.code = k := by
  cases k with
  | reserved c => exact absurd rfl (hk c)
  | _ => exact ⟨by decide, rfl⟩

private theorem ofCode_code_hint {h : Hint} (hh : ∀ c, h ≠ .reserved c) :
    ¬2 < h.code ∧ Hint.ofCode h.code = h := by
  cases h with
  | reserved c => exact absurd rfl (hh c)
  | _ => exact ⟨by decide, rfl⟩

private theorem ofCode_code_representation {r : Representation} (hr : ∀ c, r ≠ .reserved c) :
    ¬4 < r.code ∧ Representation.ofCode r.code = r := by
  cases r with
  | reserved c => exact absurd rfl (hr c)
  | _ => exact ⟨by decide, rfl⟩

/-! ## Operations

The record of an operation has its inputs and targets as numbers. If these are in range and the
operation is one that the record can hold, reading gives the operation back. -/

theorem targets_ofOperation (op : Operation) :
    (OpRecord.ofOperation op).targets = op.successors := by
  obtain ⟨a, inputs⟩ := op
  cases a <;> rfl

theorem inputs_ofOperation (op : Operation) : (OpRecord.ofOperation op).inputs = op.inputs := by
  obtain ⟨a, inputs⟩ := op
  cases a <;> rfl

private theorem operation_ofOperation {op : Operation} (hop : op.Recordable) {blocks ops : Nat}
    (hin : ∀ i ∈ op.inputs, i < ops) (hout : ∀ t ∈ op.successors, t < blocks) :
    (OpRecord.ofOperation op).operation blocks ops = .ok op := by
  have hinputs : (OpRecord.ofOperation op).inputs.find? (ops ≤ ·) = none := by
    rw [inputs_ofOperation, List.find?_eq_none]
    intro i hi
    simpa using hin i hi
  have htargets : (OpRecord.ofOperation op).targets.find? (blocks ≤ ·) = none := by
    rw [targets_ofOperation, List.find?_eq_none]
    intro t ht
    simpa using hout t ht
  rw [OpRecord.operation, hinputs, htargets]
  obtain ⟨a, inputs⟩ := op
  cases a with
  | other m required => rfl
  | goto t =>
    have hnil : inputs = [] := hop
    rw [hnil]
    rfl
  | branch t f hint =>
    obtain ⟨⟨cond, hcond⟩, hhint⟩ := hop
    have hcond : inputs = [cond] := hcond
    obtain ⟨hlow, hcode⟩ := ofCode_code_hint hhint
    rw [hcond]
    change (if 2 < hint.code then _ else Except.ok (Operation.branch cond t f (.ofCode hint.code)))
      = _
    rw [if_neg hlow, hcode]
    rfl
  | phi rep =>
    obtain ⟨hlow, hcode⟩ := ofCode_code_representation hop
    change (if 4 < rep.code then _ else Except.ok (⟨.phi (.ofCode rep.code), inputs⟩ : Operation))
      = _
    rw [if_neg hlow, hcode]
  | call callee => rfl
  | ret => rfl
  | dead =>
    have hnil : inputs = [] := hop
    rw [hnil]
    rfl
  | reserved c => exact hop.elim

/-! ## Graphs

Block by block, the reader stands where `firstOps` is: all operations in front have been added, and
those of the block come next. -/

section Graph

variable {g : Graph} (h : g.Tidy Operation.Recordable)

theorem items_ofBlock {b : BlockIndex} {blk : Block} (hblk : g.blocks[b]? = some blk) :
    (BlockRecord.ofBlock g blk).ops.items = (g.opsIn b).map .ofOperation := by
  rw [Graph.opsIn, List.map_filterMap, Graph.span_of_block hblk]
  rfl

include h

private theorem count_ofGraph : (GraphRecord.ofGraph g).blocks.items.foldl
    (fun sum r ↦ sum + r.ops.items.length) 0 = g.opCount := by
  change (g.blocks.toList.map (BlockRecord.ofBlock g)).foldl _ 0 = _
  rw [← h.laid.offset_blockCount, Graph.blockCount, ← Array.length_toList]
  suffices hsum : ∀ k ≤ g.blocks.toList.length, ((g.blocks.toList.take k).map
      (BlockRecord.ofBlock g)).foldl (fun sum r ↦ sum + r.ops.items.length) 0 = g.offset k by
    have := hsum _ (Nat.le_refl _)
    rwa [List.take_length] at this
  intro k
  induction k with
  | zero => exact fun _ ↦ rfl
  | succ k ih =>
    intro hk
    have hblk : g.blocks[k]? = some g.blocks.toList[k] := by
      rw [← Array.getElem?_toList, List.getElem?_eq_getElem hk]
    have hlen : (BlockRecord.ofBlock g g.blocks.toList[k]).ops.items.length =
        (g.span k).length := by
      rw [items_ofBlock hblk, List.length_map, Graph.length_opsIn h.sound]
    rw [List.take_add_one, List.getElem?_eq_getElem hk, List.map_append, List.foldl_append,
      ih (Nat.le_of_lt hk), Graph.offset_succ, ← hlen]
    rfl

private theorem foldlM_addBlock_ofGraph :
    (GraphRecord.ofGraph g).blocks.items.zipIdx.foldlM addBlock (.empty g.name)
      = .ok (g.firstOps 0 none) := by
  -- no kind of the graph is out of range, so that adding the records is adding their blocks
  have hstep : ∀ r ∈ (GraphRecord.ofGraph g).blocks.items.zipIdx, ∀ g' : Graph,
      addBlock g' r = (g'.addBlock (.ofCode r.1.kind) r.1.deferred).mapError .breach := by
    rintro ⟨r, i⟩ hr g'
    have hmem : r ∈ g.blocks.toList.map (BlockRecord.ofBlock g) := List.fst_mem_of_mem_zipIdx hr
    obtain ⟨blk, hblk, rfl⟩ := List.mem_map.mp hmem
    obtain ⟨b, hb⟩ := List.mem_iff_getElem?.mp hblk
    rw [Array.getElem?_toList] at hb
    have hlow : ¬3 < (BlockRecord.ofBlock g blk).kind := (ofCode_code_kind (h.kind hb)).1
    rw [addBlock, if_neg hlow]
  rw [foldlM_congr (h := fun r ↦ r) hstep, List.map_id', foldlM_mapError]
  rw [Graph.foldlM_addBlock_blocks (fun r : BlockRecord × Nat ↦ .ofCode r.1.kind)
    (fun r ↦ r.1.deferred) h.sound ?_]
  · rfl
  · have hfst : ∀ r : BlockRecord × Nat, (⟨.ofCode r.1.kind, r.1.deferred, none⟩ : Block)
        = ((fun r : BlockRecord ↦ (⟨.ofCode r.kind, r.deferred, none⟩ : Block)) ∘ Prod.fst) r :=
      fun _ ↦ rfl
    rw [List.map_congr_left fun r _ ↦ hfst r, ← List.map_map, List.zipIdx_map_fst]
    change (g.blocks.toList.map (BlockRecord.ofBlock g)).map _ = _
    rw [List.map_map]
    refine List.map_congr_left fun blk hblk ↦ ?_
    obtain ⟨b, hb⟩ := List.mem_iff_getElem?.mp hblk
    rw [Array.getElem?_toList] at hb
    change (⟨.ofCode blk.kind.code, _, _⟩ : Block) = _
    rw [(ofCode_code_kind (h.kind hb)).2]
    rfl

private theorem addOp_ofOperation {b : BlockIndex} {k : Nat} {op : Operation}
    (hk : (g.opsIn b)[k]? = some op) (g' : Graph) :
    addOp g.blockCount g.opCount b (g.opsIn b).length g' (.ofOperation op, k)
      = (g'.addOperation op).mapError .breach := by
  obtain ⟨hmem, hop⟩ := Graph.getElem?_opsIn h.sound hk
  have hread := operation_ofOperation (h.op hop) (h.values hop) fun t ht ↦ by
    have hend := (h.sound.ends hmem hop (Operation.isTerminator_of_mem_successors ht)).1
    rw [← Graph.successors_of_terminator hend hop] at ht
    exact h.sound.target_lt ht
  rw [addOp, hread]
  change (if op.isTerminator ≠ decide (k + 1 = (g.opsIn b).length) then _ else _) = _
  rw [if_neg (not_not.mpr (Graph.isTerminator_opsIn h.sound h.bound_eq hk))]

private theorem fillBlock_ofBlock {b : BlockIndex} {blk : Block} (hblk : g.blocks[b]? = some blk) :
    fillBlock g.blockCount g.opCount (g.firstOps (g.offset b) none) (.ofBlock g blk, b)
      = .ok (g.firstOps (g.offset (b + 1)) none) := by
  have hlt := Graph.lt_blockCount hblk
  have hne : ((g.opsIn b).map OpRecord.ofOperation).isEmpty = false := by
    have hspan := h.laid.span_eq h.sound hblk
    have hpos := h.sound.span_pos hblk hspan
    rw [List.isEmpty_eq_false_iff, Ne, List.map_eq_nil_iff, ← List.length_eq_zero_iff,
      Graph.length_opsIn h.sound, Graph.span_of_block hblk, Block.span, hspan, Option.getD_some,
      Span.length]
    lia
  have hops : ((g.opsIn b).map OpRecord.ofOperation).zipIdx.foldlM
      (addOp g.blockCount g.opCount b ((g.opsIn b).map OpRecord.ofOperation).length)
      (g.firstOps (g.offset b) (some b)) = .ok (g.firstOps (g.offset (b + 1)) none) := by
    rw [List.zipIdx_map, List.foldlM_map, List.length_map]
    have hstep : ∀ e ∈ (g.opsIn b).zipIdx, ∀ g' : Graph,
        addOp g.blockCount g.opCount b (g.opsIn b).length g' (Prod.map OpRecord.ofOperation id e)
          = (g'.addOperation e.1).mapError .breach := by
      rintro ⟨op, k⟩ he g'
      exact addOp_ofOperation h (List.mk_mem_zipIdx_iff_getElem?.mp he) g'
    rw [foldlM_congr (r := fun g' op ↦ (g'.addOperation op).mapError .breach) (h := Prod.fst) hstep,
      List.zipIdx_map_fst, foldlM_mapError, ← Graph.addOperations,
      Graph.addOperations_firstOps h.sound h.laid h.bound_eq hlt]
    rfl
  rw [fillBlock, items_ofBlock hblk, if_neg (by simp [hne]), Graph.bind_firstOps h.sound h.laid hlt]
  exact hops

/-- The record of a tidy graph gives the restored graph. -/
theorem graph_ofGraph : (GraphRecord.ofGraph g).graph = .ok g.restored := by
  have hne : (GraphRecord.ofGraph g).blocks.items.isEmpty = false := by
    have hpos := h.pos
    change (g.blocks.toList.map (BlockRecord.ofBlock g)).isEmpty = false
    rw [List.isEmpty_eq_false_iff, Ne, List.map_eq_nil_iff, ← List.length_eq_zero_iff,
      Array.length_toList]
    exact Nat.ne_of_gt hpos
  have hlen : (GraphRecord.ofGraph g).blocks.items.length = g.blockCount := by
    change (g.blocks.toList.map (BlockRecord.ofBlock g)).length = _
    rw [List.length_map, Array.length_toList, Graph.blockCount]
  have hfill : (GraphRecord.ofGraph g).blocks.items.zipIdx.foldlM
      (fillBlock g.blockCount g.opCount) (g.firstOps (g.offset 0) none)
      = .ok (g.firstOps (g.offset (0 + g.blockCount)) none) := by
    have hlen' : (GraphRecord.ofGraph g).blocks.items.zipIdx.length = g.blockCount := by
      rw [List.length_zipIdx, hlen]
    have hstates := foldlM_of_states (S := fun b ↦ g.firstOps (g.offset b) none)
      (f := fillBlock g.blockCount g.opCount) (l := (GraphRecord.ofGraph g).blocks.items.zipIdx)
      (k := 0) ?_
    · rwa [hlen'] at hstates
    · intro b r hr
      rw [List.getElem?_zipIdx, Option.map_eq_some_iff] at hr
      obtain ⟨r, hr, rfl⟩ := hr
      have hr : (g.blocks.toList.map (BlockRecord.ofBlock g))[b]? = some r := hr
      rw [List.getElem?_map, Option.map_eq_some_iff] at hr
      obtain ⟨blk, hblk, rfl⟩ := hr
      rw [Array.getElem?_toList] at hblk
      simp only [Nat.zero_add]
      exact fillBlock_ofBlock h hblk
  rw [Nat.zero_add, h.laid.offset_blockCount, Graph.firstOps_all h.sound h.bound_eq] at hfill
  rw [GraphRecord.graph, if_neg (by simp [GraphRecord.ofGraph]), if_neg (by simp [hne]),
    count_ofGraph h, hlen]
  change ((GraphRecord.ofGraph g).blocks.items.zipIdx.foldlM addBlock (.empty g.name) >>= _) = _
  rw [foldlM_addBlock_ofGraph h]
  exact hfill

end Graph

end Binary

end Flowgraph
