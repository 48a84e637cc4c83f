import Flowgraph.Proofs.Graph.Renaming
import Flowgraph.Proofs.Graph.Slots
import Flowgraph.Proofs.Stepping
import Flowgraph.Rebuild.Reducer

/-!
# What each step of rebuilding does

A rebuilding step reads and writes the assembler and can fail. The steps of the assembler are
described one by one, in terms of two partial maps: the copy of a block and the value that stands
for an operation.

## Phis

`Build.phiInputs` matches the predecessors of a copied block with those of its source. Two
predecessors match if one copies the other, and the first, second and so on of several parallel
edges match in order. What comes out is said by counting: the input for position `q` is the one at
the position of the source where the same predecessor occurs for the same time.
-/

namespace Flowgraph

namespace Build

variable {α : Type} {a a' : Assembler}

@[simp] theorem yields_ofExcept {r : Except Breach α} {x : α} :
    Yields (ofExcept r) a x a' ↔ r = .ok x ∧ a' = a := by
  cases r with
  | error e => exact ⟨fun h ↦ absurd h not_yields_throw, fun h ↦ by cases h.1⟩
  | ok y => rw [ofExcept, yields_pure, Except.ok.injEq, eq_comm]

end Build

/-! ## The two maps

A copy of a block is made once and stays, a value is noted once and stays. Both maps are one to one
as far as they go. -/

namespace Assembler

def copy? (a : Assembler) (b : BlockIndex) : Option BlockIndex := (a.blockMap[b]?).join

/-- What stands for an operation of the source. -/
def value? (a : Assembler) (i : OpIndex) : Option OpIndex := (a.opMap[i]?).join

@[simp] theorem copy?_start (g : Graph) (b : BlockIndex) : (start g).copy? b = none := by
  rw [copy?, start, Array.getElem?_replicate]
  split <;> rfl

@[simp] theorem value?_start (g : Graph) (i : OpIndex) : (start g).value? i = none := by
  rw [value?, start, Array.getElem?_replicate]
  split <;> rfl

/-- The assembler with a new, empty copy of block `b`. -/
def withCopy (a : Assembler) (b : BlockIndex) (blk : Block) : Assembler :=
  { a with
    output := { a.output with blocks := a.output.blocks.push ⟨blk.kind, blk.deferred, none⟩ }
    blockMap := a.blockMap.setIfInBounds b (some a.output.blockCount)
    origin := a.origin.push b }

/-- The assembler with `v` standing for operation `i`. -/
def withValue (a : Assembler) (i : OpIndex) (v : Option OpIndex) : Assembler :=
  { a with opMap := a.opMap.setIfInBounds i v }

theorem copy?_withCopy {a : Assembler} {b : BlockIndex} (hb : b < a.blockMap.size) (blk : Block)
    (c : BlockIndex) :
    (a.withCopy b blk).copy? c = if c = b then some a.output.blockCount else a.copy? c := by
  rw [copy?, withCopy]
  split
  · rename_i hc
    rw [hc, Array.getElem?_setIfInBounds_self_of_lt hb, Option.join_some]
  · rename_i hc
    rw [Array.getElem?_setIfInBounds_ne (Ne.symm hc), copy?]

section

variable {a : Assembler} {b b' c : BlockIndex} {blk : Block}

theorem copy?_withCopy_mono (hb : b < a.blockMap.size) (hnone : a.copy? b = none)
    (hc : a.copy? b' = some c) : (a.withCopy b blk).copy? b' = some c := by
  rw [copy?_withCopy hb, if_neg, hc]
  rintro rfl
  rw [hnone] at hc
  cases hc

/-- A copy is the new one, or was there before. -/
theorem copy?_withCopy_cases (hb : b < a.blockMap.size)
    (hc : (a.withCopy b blk).copy? b' = some c) :
    b' = b ∧ c = a.output.blockCount ∨ a.copy? b' = some c := by
  rw [copy?_withCopy hb] at hc
  split at hc
  · rename_i hb'
    exact Or.inl ⟨hb', (Option.some.inj hc).symm⟩
  · exact Or.inr hc

theorem withCopy_block_self : (a.withCopy b blk).output.blocks[a.output.blockCount]? =
    some ⟨blk.kind, blk.deferred, none⟩ := by
  rw [withCopy, Graph.blockCount, Array.getElem?_push_size]

theorem withCopy_block_of_lt (hc : c < a.output.blockCount) :
    (a.withCopy b blk).output.blocks[c]? = a.output.blocks[c]? := by
  have hne : c ≠ a.output.blocks.size := Nat.ne_of_lt hc
  rw [withCopy, Array.getElem?_push, if_neg hne]

/-- As long as there is room, adding the block succeeds. -/
theorem addBlock_eq_withCopy (hroom : a.output.blockCount < noHandle) :
    a.output.addBlock blk.kind blk.deferred = .ok (a.withCopy b blk).output := by
  rw [Graph.addBlock, if_neg (Nat.not_le.mpr hroom)]
  rfl

end

theorem value?_withValue {a : Assembler} {i : OpIndex} {v : Option OpIndex} (hi : i < a.opMap.size)
    (j : OpIndex) : (a.withValue i v).value? j = if j = i then v else a.value? j := by
  rw [value?, withValue]
  split
  · rename_i hj
    rw [hj, Array.getElem?_setIfInBounds_self_of_lt hi, Option.join_some]
  · rename_i hj
    rw [Array.getElem?_setIfInBounds_ne (Ne.symm hj), value?]

/-- Nothing stands for an operation as long as nothing is put in its place. -/
theorem withValue_none {a : Assembler} {i : OpIndex} (hi : i < a.opMap.size)
    (h : a.value? i = none) : a.withValue i none = a := by
  have hsame : a.opMap.setIfInBounds i none = a.opMap := by
    refine Array.ext_getElem? fun j ↦ ?_
    by_cases hj : i = j
    · rw [← hj, Array.getElem?_setIfInBounds_self_of_lt hi]
      rw [value?, Array.getElem?_eq_getElem hi, Option.join_some] at h
      rw [Array.getElem?_eq_getElem hi, h]
    · rw [Array.getElem?_setIfInBounds_ne hj]
  rw [withValue, hsame]

/-- Blocks of the source and their copies know each other. -/
structure Paired (a : Assembler) : Prop where
  origin_size : a.origin.size = a.output.blockCount
  copy_iff : ∀ {b c : BlockIndex}, a.copy? b = some c ↔ a.origin[c]? = some b

namespace Paired

variable {a : Assembler} (h : a.Paired) {b b' c : BlockIndex}

include h

theorem copy_inj (hb : a.copy? b = some c) (hb' : a.copy? b' = some c) : b = b' :=
  Option.some.inj ((h.copy_iff.mp hb).symm.trans (h.copy_iff.mp hb'))

theorem copy_lt (hb : a.copy? b = some c) : c < a.output.blockCount := by
  rw [← h.origin_size]
  exact (Array.getElem?_eq_some_iff.mp (h.copy_iff.mp hb)).1

theorem exists_copied (hc : c < a.output.blockCount) : ∃ b, a.copy? b = some c := by
  rw [← h.origin_size] at hc
  exact ⟨_, h.copy_iff.mpr (Array.getElem?_eq_getElem hc)⟩

theorem nodup_origin : a.origin.toList.Nodup := by
  rw [List.nodup_iff_getElem?_ne_getElem?]
  intro c d hcd hd heq
  rw [Array.getElem?_toList, Array.getElem?_toList] at heq
  rw [Array.length_toList] at hd
  have hdb := h.copy_iff.mpr (Array.getElem?_eq_getElem hd)
  have hcb := h.copy_iff.mpr (heq.trans (Array.getElem?_eq_getElem hd))
  exact absurd (Option.some.inj (hcb.symm.trans hdb)) (Nat.ne_of_lt hcd)

theorem withCopy (hb : a.copy? b = none) (hlt : b < a.blockMap.size) {blk : Block} :
    (a.withCopy b blk).Paired := by
  refine ⟨?_, fun {b' c} ↦ ?_⟩
  · rw [Assembler.withCopy, Array.size_push, h.origin_size, Graph.blockCount, Graph.blockCount,
      Array.size_push]
  · rw [copy?_withCopy hlt, Assembler.withCopy, Array.getElem?_push, h.origin_size]
    by_cases hc : c = a.output.blockCount
    · rw [if_pos hc, hc]
      constructor
      · intro heq
        split at heq
        · rename_i hb'
          rw [hb']
        · exact absurd (h.copy_lt heq) (Nat.lt_irrefl _)
      · intro heq
        rw [if_pos (Option.some.inj heq).symm]
    · rw [if_neg hc, ← h.copy_iff]
      split
      · rename_i hb'
        rw [hb', hb]
        simp [Ne.symm hc]
      · rfl

end Paired

end Assembler

namespace Build

variable {a a' : Assembler}

theorem yields_emit {op : Operation} {v : OpIndex} (h : Yields (emit op) a v a') :
    ∃ c, a.output.bound = some c ∧ a.output.addOperation op = .ok (a.output.appended c op) ∧
      a' = { a with output := a.output.appended c op } ∧ v = a.output.opCount := by
  simp only [emit, yields_bind, yields_get, yields_set, yields_pure, yields_ofExcept] at h
  obtain ⟨_, _, ⟨rfl, rfl⟩, output, _, ⟨hadd, rfl⟩, _, _, rfl, rfl, rfl⟩ := h
  obtain ⟨c, hc, -, -, rfl⟩ := Graph.addOperation_eq_ok hadd
  exact ⟨c, hc, hadd, rfl, rfl⟩

theorem yields_mapBlock {b c : BlockIndex} (h : Yields (mapBlock b) a c a') :
    (a.copy? b = some c ∧ a' = a) ∨
      a.copy? b = none ∧ b < a.blockMap.size ∧ c = a.output.blockCount ∧
        ∃ blk, a.source.blocks[b]? = some blk ∧ a.output.blockCount < noHandle ∧
          a' = a.withCopy b blk := by
  simp only [mapBlock, yields_bind, yields_get] at h
  obtain ⟨_, _, ⟨rfl, rfl⟩, h⟩ := h
  rw [Assembler.copy?]
  split at h
  · simp at h
  · rename_i copy hcopy
    obtain ⟨rfl, rfl⟩ := yields_pure.mp h
    exact Or.inl ⟨by rw [hcopy, Option.join_some], rfl⟩
  · rename_i hcopy
    simp only [yields_bind, yields_ofExcept, yields_set, yields_pure] at h
    obtain ⟨blk, _, ⟨hblk, rfl⟩, output, _, ⟨hadd, rfl⟩, _, _, rfl, rfl, rfl⟩ := h
    obtain ⟨hlt, rfl⟩ := Graph.addBlock_eq_ok hadd
    exact Or.inr ⟨by rw [hcopy, Option.join_some], (Array.getElem?_eq_some_iff.mp hcopy).1, rfl,
      blk, Graph.block_eq_ok.mp hblk, hlt, rfl⟩

/-- A mapped block has a copy, and copies stay what they are. -/
theorem copy?_of_mapBlock {b c : BlockIndex} (h : Yields (mapBlock b) a c a') :
    a'.copy? b = some c ∧ ∀ {b' c'}, a.copy? b' = some c' → a'.copy? b' = some c' := by
  rcases yields_mapBlock h with ⟨hc, rfl⟩ | ⟨hnone, hlt, rfl, blk, -, -, rfl⟩
  · exact ⟨hc, fun hc' ↦ hc'⟩
  · exact ⟨by rw [Assembler.copy?_withCopy hlt, if_pos rfl],
      Assembler.copy?_withCopy_mono hlt hnone⟩

theorem yields_mapValue {i : OpIndex} {v : Option OpIndex} (h : Yields (mapValue i) a v a') :
    a' = a ∧ v = a.value? i := by
  simp only [mapValue, yields_bind, yields_get, yields_ofExcept] at h
  obtain ⟨_, _, ⟨rfl, rfl⟩, hv, rfl⟩ := h
  rw [Assembler.value?, Graph.lookup_eq_ok.mp hv, Option.join_some]
  exact ⟨rfl, rfl⟩

private theorem yields_mapInput {i v : OpIndex} (h : Yields (mapInput i) a v a') :
    a' = a ∧ a.value? i = some v := by
  simp only [mapInput, yields_bind] at h
  obtain ⟨v', _, hv', h⟩ := h
  obtain ⟨rfl, rfl⟩ := yields_mapValue hv'
  split at h
  · rename_i hv
    obtain ⟨rfl, rfl⟩ := yields_pure.mp h
    exact ⟨rfl, hv⟩
  · simp at h

theorem yields_mapM_mapInput : ∀ {l l' : List OpIndex}, Yields (l.mapM mapInput) a l' a' →
    a' = a ∧ l.mapM a.value? = some l'
  | [], l', h => by
    rw [List.mapM_nil, yields_pure] at h
    obtain ⟨rfl, rfl⟩ := h
    exact ⟨rfl, rfl⟩
  | i :: l, l', h => by
    rw [List.mapM_cons] at h
    simp only [yields_bind, yields_pure] at h
    obtain ⟨v, a₁, hv, vs, a₂, hvs, hl', ha'⟩ := h
    obtain ⟨ha₁, hv⟩ := yields_mapInput hv
    rw [ha₁, ← ha'] at hvs
    obtain ⟨ha', hvs⟩ := yields_mapM_mapInput hvs
    rw [List.mapM_cons, hv, Option.bind_eq_bind, Option.bind_some, hvs, hl']
    exact ⟨ha', rfl⟩

/-! ## The inputs of a phi

The loop over the predecessors is followed by counting, for each of them, how many of its edges were
used up. The parallel edges of one predecessor are matched in order. -/

/-- How often a block with source `p` stands in a list of output blocks. -/
def countCopies (a : Assembler) (p : BlockIndex) (l : List BlockIndex) : Nat :=
  l.countP (a.origin[·]? == some p)

/-- Blocks of the copy with the same source are the same, so that counting sources counts
blocks. -/
theorem countCopies_eq (h : a.Paired) {b c : BlockIndex} (hb : a.copy? b = some c)
    (l : List BlockIndex) : countCopies a b l = l.count c := by
  rw [countCopies, List.count_eq_countP]
  refine List.countP_congr fun d _ ↦ ?_
  rw [beq_iff_eq, beq_iff_eq, ← h.copy_iff, hb, Option.some.injEq, eq_comm]

/-- The inputs found for the predecessors `done` of a copied block, and the predecessors of the
source that are left. -/
structure Matching (a : Assembler) (preds : List BlockIndex) (op : Operation)
    (done : List BlockIndex) (acc : List (BlockIndex × Nat) × Array (Option OpIndex)) : Prop where
  size_eq : acc.2.size = done.length
  unused : ∀ p, acc.1.filter (·.1 = p)
    = (preds.zipIdx.filter (·.1 = p)).drop (countCopies a p done)
  input : ∀ {q c : Nat}, done[q]? = some c → ∃ p k j, a.origin[c]? = some p ∧
    (positionsOf preds p)[countCopies a p (done.take q)]? = some k ∧ op.inputs[k]? = some j ∧
    acc.2[q]? = some (a.value? j)

private theorem countCopies_concat (p : BlockIndex) (l : List BlockIndex) {c q : BlockIndex}
    (hc : a.origin[c]? = some q) :
    countCopies a p (l ++ [c]) = countCopies a p l + if q = p then 1 else 0 := by
  rw [countCopies, List.countP_append, countCopies, List.countP_singleton, hc]
  by_cases hq : q = p <;> simp [hq]

/-- Matching one more predecessor uses up the first one that is left with the same source. -/
theorem Matching.step {preds : List BlockIndex} {op : Operation} {done : List BlockIndex}
    {acc : List (BlockIndex × Nat) × Array (Option OpIndex)} (h : Matching a preds op done acc)
    {c p q k j : Nat} (hc : a.origin[c]? = some p) (hfind : acc.1.find? (·.1 = p) = some (q, k))
    (hj : op.inputs[k]? = some j) :
    Matching a preds op (done ++ [c]) (acc.1.erase (q, k), acc.2.push (a.value? j)) := by
  have hq : q = p := by simpa using List.find?_some hfind
  subst hq
  rw [← List.head?_filter, h.unused q, List.head?_drop] at hfind
  -- the slot found is the first of `q` that the copies of `q` in front have not used
  have hslot : (positionsOf preds q)[countCopies a q done]? = some k := by
    rw [positionsOf, List.getElem?_map, hfind, Option.map_some]
  constructor
  · rw [Array.size_push, h.size_eq, List.length_append, List.length_singleton]
  · intro p
    rw [← List.erase_filter, h.unused p, countCopies_concat p done hc]
    by_cases hp : q = p
    · subst hp
      obtain ⟨hlt, hget⟩ := List.getElem?_eq_some_iff.mp hfind
      rw [if_pos rfl, List.drop_eq_getElem_cons hlt, hget, List.erase_cons_head]
    · rw [if_neg hp, Nat.add_zero]
      refine List.erase_of_not_mem fun hmem ↦ hp ?_
      simpa using (List.mem_filter.mp (List.mem_of_mem_drop hmem)).2
  · intro n d hd
    by_cases hn : n < done.length
    · rw [List.getElem?_append_left hn] at hd
      rw [List.take_append_of_le_length (Nat.le_of_lt hn)]
      obtain ⟨p, k', j', hp, hk', hj', hacc⟩ := h.input hd
      refine ⟨p, k', j', hp, hk', hj', ?_⟩
      rw [Array.getElem?_push_lt (by rw [h.size_eq]; exact hn),
        ← Array.getElem?_eq_getElem (by rw [h.size_eq]; exact hn), hacc]
    · have hn' : n = done.length := by
        have := (List.getElem?_eq_some_iff.mp hd).1
        rw [List.length_append, List.length_singleton] at this
        omega
      subst hn'
      rw [List.getElem?_concat_length, Option.some.injEq] at hd
      rw [List.take_left, ← hd]
      refine ⟨q, k, j, hc, hslot, hj, ?_⟩
      rw [← h.size_eq, Array.getElem?_push_size]

/-- The input of the phi `i` for one more predecessor of its copied block. -/
def takeInput (a : Assembler) (i : OpIndex) (b : BlockIndex) (op : Operation)
    (acc : List (BlockIndex × Nat) × Array (Option OpIndex)) (p : BlockIndex) :
    Build (List (BlockIndex × Nat) × Array (Option OpIndex)) := do
  let source ← ofExcept (Graph.lookup a.origin p)
  match acc.1.find? (·.1 = source) with
  | none => throw (.phiWithoutInput i b source)
  | some (q, j) =>
    let input ← ofExcept (Graph.lookup op.inputs.toArray j)
    return (acc.1.erase (q, j), acc.2.push (← mapValue input))

theorem phiInputs_eq (i : OpIndex) : phiInputs i = (do
    let a ← get
    let b ← ofExcept (a.source.blockOf i)
    let op ← ofExcept (a.source.op i)
    let blk ← ofExcept (a.source.block b)
    let copy := (a.copy? b).getD noHandle
    let _ ← ofExcept (a.output.block copy)
    let (_, inputs) ← (a.output.predecessors copy).foldlM (takeInput a i b op)
      ((a.source.predecessors b).zipIdx, #[])
    return (inputs.toList, !blk.isLoop)) := rfl

/-- The inputs that a phi gets, one for each predecessor that the copy of its block has. -/
theorem yields_phiInputs {i : OpIndex} {inputs : List (Option OpIndex)} {complete : Bool}
    (h : Yields (phiInputs i) a (inputs, complete) a') :
    a' = a ∧ ∃ b op blk, a.source.owners[i]? = some b ∧ a.source.ops[i]? = some op ∧
      a.source.blocks[b]? = some blk ∧ complete = !blk.isLoop ∧
      inputs.length = (a.output.predecessors ((a.copy? b).getD noHandle)).length ∧
      ∀ {q c : Nat}, (a.output.predecessors ((a.copy? b).getD noHandle))[q]? = some c →
        ∃ p k j, a.origin[c]? = some p ∧
          (a.source.slots b p)[countCopies a p
            ((a.output.predecessors ((a.copy? b).getD noHandle)).take q)]? = some k ∧
          op.inputs[k]? = some j ∧ inputs[q]? = some (a.value? j) := by
  simp only [phiInputs, yields_bind, yields_get, yields_ofExcept] at h
  obtain ⟨_, _, ⟨rfl, rfl⟩, b, _, ⟨hb, rfl⟩, op, _, ⟨hop, rfl⟩, blk, _, ⟨hblk, rfl⟩, -, a, ⟨-, rfl⟩,
    acc, a₁, hfold, h⟩ := h
  have hmatching : a₁ = a ∧ Matching a (a.source.predecessors b) op
      ([] ++ a.output.predecessors ((a.copy? b).getD noHandle)) acc := by
    refine foldlM_of_yields (P := Matching a (a.source.predecessors b) op) ?_ ?_ hfold
    · rintro done c ⟨unused, inputs⟩ acc' a₂ hacc hstep
      simp only [yields_bind, yields_ofExcept] at hstep
      obtain ⟨p, _, ⟨hp, rfl⟩, hstep⟩ := hstep
      split at hstep
      · simp at hstep
      · rename_i q k hfind
        simp only [yields_bind, yields_ofExcept, yields_pure] at hstep
        obtain ⟨j, _, ⟨hj, rfl⟩, v, _, hv, rfl, rfl⟩ := hstep
        obtain ⟨rfl, rfl⟩ := yields_mapValue hv
        rw [Graph.lookup_eq_ok, List.getElem?_toArray] at hj
        exact ⟨rfl, hacc.step (Graph.lookup_eq_ok.mp hp) hfind hj⟩
    · exact ⟨rfl, fun p ↦ rfl, by simp⟩
  obtain ⟨rfl, hmatching⟩ := hmatching
  rw [List.nil_append] at hmatching
  obtain ⟨hr, rfl⟩ := yields_pure.mp h
  cases hr
  refine ⟨rfl, b, op, blk, Graph.blockOf_eq_ok.mp hb, Graph.op_eq_ok.mp hop,
    Graph.block_eq_ok.mp hblk, rfl, ?_, fun {q c} hc ↦ ?_⟩
  · rw [Array.length_toList, hmatching.size_eq]
  · obtain ⟨p, k, j, hp, hk, hj, hacc⟩ := hmatching.input hc
    exact ⟨p, k, j, hp, hk, hj, by rw [Array.getElem?_toList, hacc]⟩

/-- The inputs that a phi gets are values of operations, as far as they exist. -/
theorem exists_value_of_phiInputs {i : OpIndex} {inputs : List (Option OpIndex)} {complete : Bool}
    (h : Yields (phiInputs i) a (inputs, complete) a') {x : Option OpIndex} (hx : x ∈ inputs) :
    ∃ j, x = a.value? j := by
  obtain ⟨-, b, op, blk, -, -, -, -, hlen, hinput⟩ := yields_phiInputs h
  obtain ⟨q, hq⟩ := List.mem_iff_getElem?.mp hx
  have hlt := (List.getElem?_eq_some_iff.mp hq).1
  rw [hlen] at hlt
  obtain ⟨p, k, j, -, -, -, hj⟩ := hinput (List.getElem?_eq_getElem hlt)
  exact ⟨j, Option.some.inj (hq.symm.trans hj)⟩

/-! ## Copying an operation

The reducers are asked one after the other, and the last resort is to copy the operation with all
that it refers to renamed. -/

theorem yields_copyOperation {i : OpIndex} {op : Operation} {v : Option OpIndex}
    (hop : a.source.ops[i]? = some op) (h : Yields (copyOperation i) a v a') :
    (op.isPhi = true ∧ ∃ inputs complete w a₁, Yields (phiInputs i) a (inputs, complete) a ∧
        Yields (emit { op with inputs := inputs.map (·.getD noHandle) }) a w a₁ ∧ v = some w ∧
        a' = if complete then a₁ else { a₁ with waiting := a₁.waiting.push (w, i) }) ∨
      op.isPhi = false ∧ ∃ op' w a₁, Yields (op.rename mapBlock mapInput) a op' a₁ ∧
        Yields (emit op') a₁ w a' ∧ v = some w := by
  simp only [copyOperation, yields_bind, yields_get, yields_ofExcept] at h
  obtain ⟨_, _, ⟨rfl, rfl⟩, op₀, a, ⟨hop₀, rfl⟩, h⟩ := h
  cases hop.symm.trans (Graph.op_eq_ok.mp hop₀)
  split at h
  · rename_i hphi
    simp only [yields_bind] at h
    obtain ⟨⟨inputs, complete⟩, a₁, hin, w, a₂, hemit, h⟩ := h
    obtain ⟨rfl, -⟩ := yields_phiInputs hin
    refine Or.inl ⟨hphi, inputs, complete, w, a₂, hin, hemit, ?_⟩
    cases complete with
    | true => exact yields_pure.mp h
    | false =>
      simp only [Bool.not_false, if_true, yields_bind, yields_modify, yields_pure] at h
      obtain ⟨_, _, rfl, rfl, rfl⟩ := h
      exact ⟨rfl, rfl⟩
  · rename_i hphi
    simp only [yields_bind, yields_pure] at h
    obtain ⟨op', a₁, hren, w, a₂, hemit, rfl, rfl⟩ := h
    exact Or.inr ⟨by simpa using hphi, op', w, a₁, hren, hemit, rfl⟩

theorem yields_dropDead {live : Array Bool} {rewrites : IndexMap BlockIndex}
    {next : OpIndex → Build (Option OpIndex)} {i : OpIndex} {op : Operation} {v : Option OpIndex}
    (hop : a.source.ops[i]? = some op)
    (h : Yields ((Reducer.dropDead live rewrites).operation next i) a v a') :
    (∃ t c w a₁, (if op.isJump then rewrites.get? i else none) = some t ∧
        Yields (mapBlock t) a c a₁ ∧ Yields (emit (.goto c)) a₁ w a' ∧ v = some w) ∨
      (if op.isJump then rewrites.get? i else none) = none ∧
        ((live[i]? = some true ∧ Yields (next i) a v a') ∨
          live[i]? = some false ∧ op.isTerminator = false ∧ v = none ∧ a' = a) := by
  simp only [Reducer.dropDead, yields_bind, yields_get, yields_ofExcept] at h
  obtain ⟨_, _, ⟨rfl, rfl⟩, op₀, a, ⟨hop₀, rfl⟩, h⟩ := h
  cases hop.symm.trans (Graph.op_eq_ok.mp hop₀)
  split at h
  · rename_i t ht
    simp only [yields_bind, yields_pure] at h
    obtain ⟨c, a₁, hc, w, a₂, hw, rfl, rfl⟩ := h
    exact Or.inl ⟨t, c, w, a₁, ht, hc, hw, rfl⟩
  · rename_i ht
    simp only [yields_bind, yields_ofExcept] at h
    obtain ⟨l, _, ⟨hl, rfl⟩, h⟩ := h
    have hl := Graph.lookup_eq_ok.mp hl
    refine Or.inr ⟨ht, ?_⟩
    cases l with
    | true => exact Or.inl ⟨hl, h⟩
    | false =>
      cases hend : op.isTerminator with
      | true => simp [hend] at h
      | false =>
        simp only [hend, Bool.false_eq_true, if_false, yields_pure] at h
        exact Or.inr ⟨hl, rfl, h⟩

theorem yields_forwardPhis {next : OpIndex → Build (Option OpIndex)} {i : OpIndex}
    {op : Operation} {v : Option OpIndex} (hop : a.source.ops[i]? = some op) :
    Yields (Reducer.forwardPhis.operation next i) a v a' ↔
      Yields (if !op.isPhi then next i else do
        match ← phiInputs i with
        | (some v :: rest, true) => if rest.all (· = some v) then return some v else next i
        | _ => next i) a v a' := by
  simp only [Reducer.forwardPhis, yields_bind, yields_get, yields_ofExcept]
  constructor
  · rintro ⟨_, _, ⟨rfl, rfl⟩, op', _, ⟨hop', rfl⟩, hy⟩
    cases hop.symm.trans (Graph.op_eq_ok.mp hop')
    exact hy
  · exact fun hy ↦ ⟨a, a, ⟨rfl, rfl⟩, op, a, ⟨Graph.op_eq_ok.mpr hop, rfl⟩, hy⟩

/-- What becomes of a live operation: a phi whose inputs are complete and all the same is forwarded,
and anything else is copied. -/
theorem yields_reduceLive {forwardPhis : Bool} {i : OpIndex} {op : Operation} {v : Option OpIndex}
    (hop : a.source.ops[i]? = some op)
    (h : Yields (reduceOperation (if forwardPhis then [.forwardPhis] else []) i) a v a') :
    (forwardPhis = true ∧ op.isPhi = true ∧ ∃ inputs w, Yields (phiInputs i) a (inputs, true) a ∧
        inputs ≠ [] ∧ (∀ x ∈ inputs, x = some w) ∧ v = some w ∧ a' = a) ∨
      Yields (copyOperation i) a v a' ∧ (forwardPhis = true → ∀ {inputs w}, op.isPhi = true →
        Yields (phiInputs i) a (inputs, true) a → inputs ≠ [] → ¬∀ x ∈ inputs, x = some w) := by
  cases forwardPhis with
  | false => exact Or.inr ⟨h, nofun⟩
  | true =>
    replace h := (yields_forwardPhis hop).mp h
    cases hphi : op.isPhi with
    | false => exact Or.inr ⟨by simpa [hphi] using h, fun _ _ _ hphi' ↦ by cases hphi'⟩
    | true =>
      simp only [hphi, Bool.not_true, Bool.false_eq_true, if_false, yields_bind] at h
      obtain ⟨⟨inputs, complete⟩, a₁, hin, h⟩ := h
      obtain ⟨rfl, -⟩ := yields_phiInputs hin
      have hsame : ∀ {inputs'}, Yields (phiInputs i) a₁ (inputs', true) a₁ →
          (inputs', true) = (inputs, complete) := fun hin' ↦ (hin'.unique hin).1
      split at h
      · rename_i w rest heq
        cases heq
        split at h
        · rename_i hrest
          obtain ⟨rfl, rfl⟩ := yields_pure.mp h
          refine Or.inl ⟨rfl, rfl, _, w, hin, List.cons_ne_nil _ _, ?_, rfl, rfl⟩
          simpa using hrest
        · rename_i hrest
          refine Or.inr ⟨h, fun _ {inputs' w'} _ hin' _ hall ↦ hrest ?_⟩
          cases hsame hin'
          rw [List.forall_mem_cons, Option.some.injEq] at hall
          simpa [hall.1] using hall.2
      · rename_i hcases
        refine Or.inr ⟨h, fun _ {inputs' w'} _ hin' hne hall ↦ ?_⟩
        cases hsame hin'
        cases inputs with
        | nil => exact hne rfl
        | cons x rest =>
          have hx := hall x List.mem_cons_self
          exact hcases w' rest (by rw [hx])

theorem yields_copyOp {reducers : List Reducer} {i : OpIndex} {u : PUnit}
    (h : Yields (copyOp reducers i) a u a') :
    ∃ v a₁, Yields (reduceOperation reducers i) a v a₁ ∧ a' = a₁.withValue i v := by
  simp only [copyOp, yields_bind, yields_modify] at h
  obtain ⟨v, a₁, h, rfl⟩ := h
  exact ⟨v, a₁, h, rfl⟩

/-! ## Copying blocks

Whole blocks, then the phis that wait, then the order of the blocks: the whole of rebuilding as a
sequence of steps. -/

theorem yields_wanted {b : BlockIndex} {w : Bool} (h : Yields (wanted b) a w a') :
    a' = a ∧ w = (a.copy? b).isSome := by
  simp only [wanted, yields_bind, yields_get, yields_pure] at h
  obtain ⟨_, _, ⟨rfl, rfl⟩, rfl, rfl⟩ := h
  exact ⟨rfl, rfl⟩

theorem yields_copyBlock {reducers : List Reducer} {b : BlockIndex} {u : PUnit}
    (h : Yields (copyBlock reducers b) a u a') :
    ∃ w a₀, Yields (reduceBlock reducers b) a w a₀ ∧
      ((w = false ∧ a' = a₀) ∨ w = true ∧ ∃ c a₁ output, Yields (mapBlock b) a₀ c a₁ ∧
        a₁.output.bind c = .ok output ∧
        Yields ((a₁.source.span b).toList.forM (copyOp reducers))
          { a₁ with output, filled := a₁.filled.push c, current := some b } ⟨⟩ a' ∧
        a'.output.bound = none) := by
  simp only [copyBlock, yields_bind] at h
  obtain ⟨w, a₀, hw, h⟩ := h
  refine ⟨w, a₀, hw, ?_⟩
  cases w with
  | false => exact Or.inl ⟨rfl, (yields_pure.mp h).2⟩
  | true =>
    simp only [if_true, yields_bind, yields_get, yields_ofExcept, yields_set] at h
    obtain ⟨c, _, hc, _, _, ⟨rfl, rfl⟩, output, a₁, ⟨hbind, rfl⟩, _, _, rfl, _, a₂, hops, _, _,
      ⟨rfl, rfl⟩, h⟩ := h
    split at h
    · simp at h
    · rename_i hbound
      obtain ⟨-, rfl⟩ := yields_pure.mp h
      exact Or.inr ⟨rfl, c, a₁, output, hc, hbind, hops, by simpa using hbound⟩

/-- A block that is wanted is copied if its operations are. -/
theorem copyBlock_of_yields {reducers : List Reducer} {b c : BlockIndex} {a₀ a₁ : Assembler}
    {output : Graph} (hw : Yields (reduceBlock reducers b) a true a₀)
    (hmap : Yields (mapBlock b) a₀ c a₁) (hbind : a₁.output.bind c = .ok output)
    (hops : Yields ((a₁.source.span b).toList.forM (copyOp reducers))
      { a₁ with output, filled := a₁.filled.push c, current := some b } ⟨⟩ a')
    (hbound : a'.output.bound = none) : Yields (copyBlock reducers b) a ⟨⟩ a' := by
  simp only [copyBlock, yields_bind]
  refine ⟨true, a₀, hw, ?_⟩
  simp only [if_true, yields_bind, yields_get, yields_ofExcept, yields_set]
  refine ⟨c, _, hmap, _, _, ⟨rfl, rfl⟩, _, _, ⟨hbind, rfl⟩, ⟨⟩, _, rfl, ⟨⟩, a', hops, a', a',
    ⟨rfl, rfl⟩, ?_⟩
  rw [if_neg (by simp [hbound])]
  exact yields_pure.mpr ⟨rfl, rfl⟩

theorem yields_completePhi {out i : OpIndex} {u : PUnit} (h : Yields (completePhi out i) a u a') :
    ∃ inputs complete, Yields (phiInputs i) a (inputs, complete) a ∧
      a.output.setInputs out (inputs.map (·.getD noHandle)) = .ok a'.output ∧
      a' = { a with output := a'.output } := by
  simp only [completePhi, yields_bind] at h
  obtain ⟨⟨inputs, complete⟩, a₁, hin, h⟩ := h
  have ha := (yields_phiInputs hin).1
  subst ha
  refine ⟨inputs, complete, hin, ?_⟩
  split at h
  · simp at h
  · simp only [yields_bind, yields_get, yields_ofExcept, yields_set] at h
    obtain ⟨_, _, ⟨rfl, rfl⟩, output, _, ⟨hset, rfl⟩, rfl⟩ := h
    exact ⟨hset, rfl⟩

private theorem yields_copyGraph {reducers : List Reducer} {g' : Graph}
    (hpos : a.source.blockCount ≠ 0) (h : Yields (copyGraph reducers) a g' a') :
    ∃ c a₁ a₂, Yields (mapBlock 0) a c a₁ ∧
      Yields ((List.range a.source.blockCount).forM (copyBlock reducers)) a₁ ⟨⟩ a₂ ∧
      Yields (a₂.waiting.toList.forM fun e ↦ completePhi e.1 e.2) a₂ ⟨⟩ a' ∧
      a'.output.demoteMerges.reorder a'.filled.toList = .ok g' := by
  simp only [copyGraph, yields_bind, yields_get] at h
  obtain ⟨_, a, ⟨rfl, rfl⟩, h⟩ := h
  rw [if_neg hpos] at h
  simp only [yields_bind, yields_get, yields_ofExcept] at h
  obtain ⟨c, a₁, hc, _, a₂, hcopy, _, a₃, hcomplete, _, _, ⟨rfl, rfl⟩, hre, rfl⟩ := h
  simp only [completePhis, yields_bind, yields_get] at hcomplete
  obtain ⟨_, _, ⟨rfl, rfl⟩, hcomplete⟩ := hcomplete
  exact ⟨c, a₁, _, hc, hcopy, hcomplete, hre⟩

/-- The steps of a rebuilding that goes through. -/
theorem yields_of_rebuild {reducers : List Reducer} {g g' : Graph} (hpos : 0 < g.blockCount)
    (h : g.rebuild reducers = .ok g') :
    ∃ c a₁ a₂ a, Yields (mapBlock 0) (.start g) c a₁ ∧
      Yields ((List.range g.blockCount).forM (copyBlock reducers)) a₁ ⟨⟩ a₂ ∧
      Yields (a₂.waiting.toList.forM fun e ↦ completePhi e.1 e.2) a₂ ⟨⟩ a ∧
      a.output.demoteMerges.reorder a.filled.toList = .ok g' := by
  rw [Graph.rebuild, Graph.rebuildWithRemarks] at h
  obtain ⟨a, hy⟩ : ∃ a, Yields (copyGraph reducers) (.start g) g' a := ⟨_, Prod.ext h rfl⟩
  obtain ⟨c, a₁, a₂, hmap, hcopy, hphis, hre⟩ := yields_copyGraph (Nat.ne_of_gt hpos) hy
  exact ⟨c, a₁, a₂, a, hmap, hcopy, hphis, hre⟩

/-- A rebuilding goes through if its steps do. -/
theorem rebuild_of_yields {reducers : List Reducer} {g g' : Graph} (hpos : 0 < g.blockCount)
    {c : BlockIndex} {a₁ a₂ a : Assembler} (hmap : Yields (mapBlock 0) (.start g) c a₁)
    (hcopy : Yields ((List.range g.blockCount).forM (copyBlock reducers)) a₁ ⟨⟩ a₂)
    (hphis : Yields (a₂.waiting.toList.forM fun e ↦ completePhi e.1 e.2) a₂ ⟨⟩ a)
    (hre : a.output.demoteMerges.reorder a.filled.toList = .ok g') :
    g.rebuild reducers = .ok g' := by
  have hy : Yields (copyGraph reducers) (.start g) g' a := by
    simp only [copyGraph, yields_bind, yields_get]
    refine ⟨_, _, ⟨rfl, rfl⟩, ?_⟩
    have hne : (Assembler.start g).source.blockCount ≠ 0 := Nat.ne_of_gt hpos
    rw [if_neg hne]
    simp only [yields_bind, yields_get, yields_ofExcept, completePhis]
    exact ⟨c, a₁, hmap, ⟨⟩, a₂, hcopy, ⟨⟩, a, ⟨a₂, a₂, ⟨rfl, rfl⟩, hphis⟩, a, a, ⟨rfl, rfl⟩, hre,
      rfl⟩
  rw [Graph.rebuild, Graph.rebuildWithRemarks]
  exact congrArg Prod.fst hy

end Build

/-! ## Demoted merges

A merge that is entered once and has no phi becomes plain. Nothing else changes, so that merges can
be looked at one by one. -/

/-- What one attempt at demoting block `b` makes of a block. -/
theorem Graph.demoteMerge_cases {g : Graph} {b c : BlockIndex} {blk' : Block}
    (h : (g.demoteMerge b).blocks[c]? = some blk') : ∃ blk, g.blocks[c]? = some blk ∧
      ((blk' = blk ∧ (c = b → blk.isMerge = true → (g.predecessors c).length = 1 →
          ∃ i op, i ∈ blk.span.toList ∧ g.ops[i]? = some op ∧ op.isPhi = true)) ∨
        blk' = { blk with kind := .plain } ∧ blk.isMerge = true ∧
          (g.predecessors c).length = 1 ∧ ∀ {i : OpIndex} {op : Operation},
            i ∈ blk.span.toList → g.ops[i]? = some op → op.isPhi = false) := by
  rw [demoteMerge, Array.getElem?_modify] at h
  split at h
  · rename_i hbc
    obtain ⟨blk, hblk, rfl⟩ := Option.map_eq_some_iff.mp h
    refine ⟨blk, hblk, ?_⟩
    simp only
    split
    · rename_i hdemoted
      rw [Bool.and_eq_true, Bool.and_eq_true, Bool.not_eq_true', decide_eq_true_iff, hbc,
        List.any_eq_false] at hdemoted
      obtain ⟨⟨hmerge, hlen⟩, hphi⟩ := hdemoted
      exact Or.inr ⟨rfl, hmerge, hlen, fun {i op} hi hop ↦ by simpa [hop] using hphi i hi⟩
    · rename_i hkept
      refine Or.inl ⟨rfl, fun _ hmerge hlen ↦ ?_⟩
      rw [← hbc] at hlen
      simp only [hmerge, hlen, decide_true, Bool.and_self, Bool.true_and, Bool.not_eq_true',
        Bool.not_eq_false, List.any_eq_true] at hkept
      obtain ⟨i, hi, hphi⟩ := hkept
      cases hop : g.ops[i]? with
      | none => simp [hop] at hphi
      | some op => exact ⟨i, op, hi, hop, by simpa [hop] using hphi⟩
  · rename_i hbc
    exact ⟨blk', h, Or.inl ⟨rfl, fun hcb ↦ absurd hcb.symm hbc⟩⟩

/-- `g'` is `g` with some merges made plain that have one predecessor and no phi. -/
structure Demoted (g g' : Graph) : Prop where
  alike : Graph.Alike g g'
  name_eq : g'.name = g.name
  ops_eq : g'.ops = g.ops
  block : ∀ {c : BlockIndex} {blk' : Block}, g'.blocks[c]? = some blk' →
    ∃ blk, g.blocks[c]? = some blk ∧ blk'.span = blk.span ∧ blk'.deferred = blk.deferred ∧
      (blk'.kind = blk.kind ∨
        blk.isMerge = true ∧ blk'.kind = .plain ∧ (g.predecessors c).length = 1 ∧
          ∀ {i : OpIndex} {op : Operation}, i ∈ blk.span.toList → g.ops[i]? = some op →
            op.isPhi = false)

private theorem Demoted.demoteMerge {g g' : Graph} (h : Demoted g g') (b : BlockIndex) :
    Demoted g (g'.demoteMerge b) := by
  refine ⟨h.alike.trans (Graph.alike_modify_block g' b fun blk ↦ by simp only; split <;> rfl),
    h.name_eq, h.ops_eq, fun {c blk'} hblk' ↦ ?_⟩
  obtain ⟨blk₁, hblk₁, ⟨rfl, -⟩ | ⟨rfl, hmerge, hlen, hphi⟩⟩ := Graph.demoteMerge_cases hblk'
  · exact h.block hblk₁
  · obtain ⟨blk, hblk, hspan, hdeferred, hkind⟩ := h.block hblk₁
    refine ⟨blk, hblk, hspan, hdeferred, Or.inr ⟨?_, rfl, h.alike.predecessors_eq c ▸ hlen, ?_⟩⟩
    · rcases hkind with hkind | ⟨hmerge, -⟩
      · rwa [Block.isMerge, hkind, ← Block.isMerge] at hmerge
      · exact hmerge
    · rw [← hspan, ← h.ops_eq]
      exact hphi

/-- Demoting goes through all blocks, so that a merge that is left with one predecessor has a
phi. -/
theorem demoteMerges_spec (g : Graph) : Demoted g g.demoteMerges ∧
    ∀ {c : BlockIndex} {blk' : Block}, g.demoteMerges.blocks[c]? = some blk' →
      blk'.isMerge = true → (g.predecessors c).length = 1 →
      ∃ i op, i ∈ blk'.span.toList ∧ g.ops[i]? = some op ∧ op.isPhi = true := by
  suffices hfold : ∀ (l done : List BlockIndex) (g' : Graph), Demoted g g' →
      (∀ c ∈ done, ∀ blk' : Block, g'.blocks[c]? = some blk' → blk'.isMerge = true →
        (g.predecessors c).length = 1 →
        ∃ i op, i ∈ blk'.span.toList ∧ g.ops[i]? = some op ∧ op.isPhi = true) →
      Demoted g (l.foldl Graph.demoteMerge g') ∧ ∀ c ∈ done ++ l, ∀ blk' : Block,
        (l.foldl Graph.demoteMerge g').blocks[c]? = some blk' → blk'.isMerge = true →
        (g.predecessors c).length = 1 →
        ∃ i op, i ∈ blk'.span.toList ∧ g.ops[i]? = some op ∧ op.isPhi = true by
    obtain ⟨hdem, hdone⟩ := hfold (List.range g.blockCount) [] g
      ⟨.refl g, rfl, rfl, fun hblk ↦ ⟨_, hblk, rfl, rfl, Or.inl rfl⟩⟩ (by simp)
    refine ⟨hdem, fun {c blk'} hblk' ↦ hdone c ?_ blk' hblk'⟩
    rw [List.nil_append, List.mem_range, ← hdem.alike.blockCount_eq]
    exact Graph.lt_blockCount hblk'
  intro l
  induction l with
  | nil => exact fun done g' h hdone ↦ ⟨h, by simpa using hdone⟩
  | cons b l ih =>
    intro done g' h hdone
    rw [List.append_cons, List.foldl_cons]
    refine ih (done ++ [b]) _ (h.demoteMerge b) fun c hc blk' hblk' hmerge hlen ↦ ?_
    obtain ⟨blk, hblk, ⟨rfl, hphi⟩ | ⟨rfl, -⟩⟩ := Graph.demoteMerge_cases hblk'
    · rcases List.mem_append.mp hc with hc | hc
      · exact hdone c hc _ hblk hmerge hlen
      · rw [← h.ops_eq]
        exact hphi (List.mem_singleton.mp hc) hmerge (h.alike.predecessors_eq c ▸ hlen)
    · cases hmerge

theorem demoted_demoteMerges (g : Graph) : Demoted g g.demoteMerges := (demoteMerges_spec g).1

end Flowgraph
