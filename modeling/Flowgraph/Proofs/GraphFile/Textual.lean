import Flowgraph.Proofs.GraphFile.Names
import Flowgraph.Proofs.GraphFile.Storable

/-!
# Textual graph files bring a graph back

The textual form names every block and every value after its handle. `GraphEntry.ofGraph` is what
the form of a graph says, and `graph_ofGraph` reads it again: no name is taken twice, every name is
found where its handle points, and no operation is out of place. What comes out is the restored
graph, with the normal form of its name.
-/

namespace Flowgraph.Textual

open Checking

/-! ## What the textual form says

The entries of a graph: blocks and values are named after their handles, and every operation lists
the fields that belong to it. -/

/-- The entry of operation `i`. A terminator has no value to name. -/
def OpEntry.ofOperation (i : OpIndex) (op : Operation) : OpEntry :=
  let plain : OpEntry := { OpEntry.zero with
    value := if op.isTerminator then "" else i.text
    name := op.action.kindText
    args := op.inputs.map OpIndex.text }
  match op.action with
  | .other m required => { plain with name := textOf m, required }
  | .goto t => { plain with target := t.text }
  | .branch t f hint =>
    { plain with
      ifTrue := t.text, ifFalse := f.text, hint := if hint = .unhinted then "" else hint.text }
  | .phi rep => { plain with rep := rep.text }
  | .call callee => { plain with callee := textOf callee }
  | _ => plain

def BlockEntry.ofBlock (g : Graph) (b : BlockIndex) (blk : Block) : BlockEntry where
  label := b.text
  kind := blk.kind.text
  deferred := blk.deferred
  ops := blk.span.toList.filterMap fun i ↦ g.ops[i]?.map (.ofOperation i)

def GraphEntry.ofGraph (g : Graph) : GraphEntry where
  name := textOf g.name
  blocks := g.blocks.toList.zipIdx.map fun e ↦ .ofBlock g e.2 e.1

/-! ## Operations

With the names of handles in scope, the entry of an operation is read as the operation, for every
keyword and for all other names. -/

private theorem mapM_eq_pure {m : Type → Type} [Monad m] [LawfulMonad m] {α β : Type} {f : α → m β}
    {h : α → β} : ∀ {l : List α}, (∀ a ∈ l, f a = pure (h a)) → l.mapM f = pure (l.map h)
  | [], _ => by rw [List.mapM_nil, List.map_nil]
  | a :: l, hf => by
    rw [List.forall_mem_cons] at hf
    rw [List.mapM_cons, hf.1, pure_bind, mapM_eq_pure hf.2, pure_bind, List.map_cons]

/-- The scope in which `n` blocks and `m` values are named after their handles. -/
def handleScope (n m : Nat) : Scope :=
  ⟨(List.range n).map (numbered "b"), (List.range m).map (numbered "v")⟩

section Operation

variable {n m : Nat} (hn : n ≤ noHandle) (hm : m ≤ noHandle)

include hn in
private theorem block_handleScope {b : BlockIndex} (hb : b < n) :
    (handleScope n m).block b.text = pure b := by
  rw [Scope.block, text_block (Nat.lt_of_lt_of_le hb hn), normalName_label, handleScope,
    idxOf?_numbered hb]
  rfl

include hm in
private theorem value_handleScope {i : OpIndex} (hi : i < m) :
    (handleScope n m).value i.text = pure i := by
  rw [Scope.value, text_op (Nat.lt_of_lt_of_le hi hm), normalName_value, handleScope,
    idxOf?_numbered hi]
  rfl

private theorem hintOf?_text {h : Hint} (hh : ∀ c, h ≠ .reserved c) :
    hintOf? (if h = .unhinted then "" else h.text) = some h := by
  cases h with
  | reserved c => exact absurd rfl (hh c)
  | _ => decide +kernel

private theorem representationOf?_text {r : Representation} (hr : ∀ c, r ≠ .reserved c) :
    representationOf? r.text = some r := by
  cases r with
  | reserved c => exact absurd rfl (hr c)
  | _ => decide +kernel

theorem kindOf?_text {k : BlockKind} (hk : ∀ c, k ≠ .reserved c) : kindOf? k.text = some k := by
  cases k with
  | reserved c => exact absurd rfl (hk c)
  | _ => decide +kernel

private theorem keyword_eq : ∀ k ∈ keywords,
    Text.trim k = k ∧ Text.lower k = k ∧ k.isEmpty = false := by decide +kernel

include hm in
private theorem mapM_value_handleScope {inputs : List OpIndex} (hin : ∀ i ∈ inputs, i < m) :
    (inputs.map OpIndex.text).mapM (handleScope n m).value = pure inputs := by
  rw [List.mapM_map, mapM_eq_pure (h := id), List.map_id]
  exact fun i hi ↦ value_handleScope hm (hin i hi)

include hn hm

private theorem operation_ofOperation {op : Operation} (hop : op.Storable)
    (hin : ∀ i ∈ op.inputs, i < m) (hout : ∀ t ∈ op.successors, t < n) (i : OpIndex) :
    (OpEntry.ofOperation i op).operation (handleScope n m) = pure op := by
  obtain ⟨hrecord, hnamed⟩ := hop
  obtain ⟨a, inputs⟩ := op
  have hargs := mapM_value_handleScope (n := n) hm hin
  have hblock : ∀ t ∈ Operation.successors ⟨a, inputs⟩, (handleScope n m).block t.text = pure t :=
    fun t ht ↦ block_handleScope hn (hout t ht)
  rw [OpEntry.operation]
  cases a with
  | other mnemonic required =>
    obtain ⟨name, hname⟩ := hnamed
    have hne : name.isEmpty = false := by
      rw [← Bool.not_eq_true, String.isEmpty_iff]
      exact hname.ne_empty
    have hother := hname.not_keyword
    simp only [OpEntry.ofOperation, hname.eq_utf8, textOf_toUTF8, hname.trim_eq, hargs, pure_bind,
      hne, Bool.false_eq_true, if_false]
    split <;> simp_all [keywords]
  | goto t =>
    obtain ⟨htrim, hlower, hne⟩ := keyword_eq "goto" (by decide)
    have hnil : inputs = [] := hrecord
    simp only [OpEntry.ofOperation, Action.kindText, pure_bind, htrim, hlower, hne,
      hblock t (by simp [Operation.successors]), Bool.false_eq_true, if_false, hnil]
    rfl
  | branch t f hint =>
    obtain ⟨htrim, hlower, hne⟩ := keyword_eq "branch" (by decide)
    obtain ⟨⟨cond, hcond⟩, hhint⟩ := hrecord
    obtain rfl : inputs = [cond] := hcond
    simp only [OpEntry.ofOperation, Action.kindText, hargs, pure_bind, htrim, hlower, hne,
      Bool.false_eq_true, if_false, OpEntry.branch, hintOf?_text hhint, orNote,
      hblock t (by simp [Operation.successors]), hblock f (by simp [Operation.successors])]
    rfl
  | phi rep =>
    obtain ⟨htrim, hlower, hne⟩ := keyword_eq "phi" (by decide)
    simp only [OpEntry.ofOperation, Action.kindText, hargs, pure_bind, htrim, hlower, hne,
      Bool.false_eq_true, if_false, representationOf?_text hrecord, orNote]
  | call callee =>
    obtain ⟨htrim, hlower, hne⟩ := keyword_eq "call" (by decide)
    obtain ⟨s, rfl, hs⟩ := hnamed
    have hs : s.isEmpty = false := by
      rw [← Bool.not_eq_true, String.isEmpty_iff]
      exact hs
    simp only [OpEntry.ofOperation, Action.kindText, hargs, pure_bind, htrim, hlower, hne,
      Bool.false_eq_true, if_false, textOf_toUTF8, hs]
  | ret =>
    obtain ⟨htrim, hlower, hne⟩ := keyword_eq "return" (by decide)
    simp only [OpEntry.ofOperation, Action.kindText, hargs, pure_bind, htrim, hlower, hne,
      Bool.false_eq_true, if_false]
    rfl
  | dead =>
    obtain ⟨htrim, hlower, hne⟩ := keyword_eq "dead" (by decide)
    have hnil : inputs = [] := hrecord
    simp only [OpEntry.ofOperation, Action.kindText, htrim, hlower, hne, Bool.false_eq_true,
      if_false, hnil]
    rfl
  | reserved c => exact hrecord.elim

end Operation

/-! ## Blocks

The scope of a whole file has one name for each handle. The entries of a block give the operations
of its span, in order. -/

private theorem blockOps_of_operations {s : Scope} {b : Nat} :
    ∀ {l : List (OpEntry × Operation)} {k : Nat}, (∀ e ∈ l, e.1.operation s = pure e.2) →
    (∀ {i : Nat} {e : OpEntry × Operation}, l[i]? = some e →
      e.2.isTerminator = decide (i + 1 = l.length)) →
    blockOps s b ((l.map Prod.fst).zipIdx k) = (l.map Prod.snd, [], true)
  | [], _, _, _ => rfl
  | (e, op) :: l, k, hread, hends => by
    rw [List.forall_mem_cons] at hread
    have hrun : (e.operation s).run #[] = (op, #[]) := by rw [hread.1]; rfl
    have hend : op.isTerminator = ((l.map Prod.fst).zipIdx (k + 1)).isEmpty := by
      rw [hends (i := 0) (e := (e, op)) rfl, Bool.eq_iff_iff]
      simp
    have hrest := blockOps_of_operations (b := b) (k := k + 1) hread.2 fun {i e'} he' ↦ by
      rw [hends (i := i + 1) (by rw [List.getElem?_cons_succ]; exact he'), List.length_cons]
      simp
    rw [List.map_cons, List.zipIdx_cons, blockOps, hrun]
    simp only [hend, ne_eq, not_true_eq_false, if_false, hrest]
    rfl

section Graph

variable {g : Graph} (h : g.Tidy Operation.Storable)

/-- The scope in which a graph's own handles are the names. -/
def scopeOf (g : Graph) : Scope := handleScope g.blockCount g.opCount

def entriesIn (g : Graph) (b : BlockIndex) : List (OpEntry × Operation) :=
  (g.span b).toList.filterMap fun i ↦ g.ops[i]?.map fun op ↦ (.ofOperation i op, op)

theorem map_snd_entriesIn (g : Graph) (b : BlockIndex) :
    (entriesIn g b).map Prod.snd = g.opsIn b := by
  rw [entriesIn, List.map_filterMap, Graph.opsIn]
  congr 1
  funext i
  rw [Option.map_map]
  exact Option.map_id'

theorem ops_ofBlock {b : BlockIndex} {blk : Block} (hblk : g.blocks[b]? = some blk) :
    (BlockEntry.ofBlock g b blk).ops = (entriesIn g b).map Prod.fst := by
  simp only [entriesIn, List.map_filterMap, Graph.span_of_block hblk, Option.map_map]
  rfl

include h

private theorem blockOps_ofBlock {b : BlockIndex} {blk : Block} (hblk : g.blocks[b]? = some blk) :
    blockOps (scopeOf g) b (BlockEntry.ofBlock g b blk).ops.zipIdx = (g.opsIn b, [], true) := by
  rw [ops_ofBlock hblk, blockOps_of_operations, map_snd_entriesIn]
  · intro e he
    obtain ⟨i, hi, he⟩ := List.mem_filterMap.mp he
    obtain ⟨op, hop, rfl⟩ := Option.map_eq_some_iff.mp he
    refine operation_ofOperation h.sound.blocks_le h.sound.ops_le (h.op hop) (h.values hop) ?_ i
    intro t ht
    have hend := (h.sound.ends hi hop (Operation.isTerminator_of_mem_successors ht)).1
    rw [← Graph.successors_of_terminator hend hop] at ht
    exact h.sound.target_lt ht
  · intro k e he
    have hop : (g.opsIn b)[k]? = some e.2 := by
      rw [← map_snd_entriesIn, List.getElem?_map, he, Option.map_some]
    rw [Graph.isTerminator_opsIn h.sound h.bound_eq hop, ← map_snd_entriesIn, List.length_map]

private theorem fillBlocks_ofBlock : ∀ {l : List Block} {b : BlockIndex},
    (∀ {i : Nat} {blk : Block}, l[i]? = some blk → g.blocks[b + i]? = some blk) →
    fillBlocks (scopeOf g) ((l.zipIdx b).map fun e ↦ (.ofBlock g e.2 e.1, e.2))
      (g.firstOps (g.offset b) none) [] = .ok (g.firstOps (g.offset (b + l.length)) none)
  | [], _, _ => rfl
  | blk :: l, b, hblocks => by
    have hblk : g.blocks[b]? = some blk := hblocks (i := 0) rfl
    have hlt := Graph.lt_blockCount hblk
    have hne : (BlockEntry.ofBlock g b blk).ops.isEmpty = false := by
      have hspan := h.laid.span_eq h.sound hblk
      have hpos := h.sound.span_pos hblk hspan
      rw [List.isEmpty_eq_false_iff, ops_ofBlock hblk, Ne, List.map_eq_nil_iff,
        ← List.length_eq_zero_iff, ← List.length_map (f := Prod.snd), map_snd_entriesIn,
        Graph.length_opsIn h.sound, Graph.span_of_block hblk, Block.span, hspan, Option.getD_some,
        Span.length]
      lia
    have hrest := fillBlocks_ofBlock (l := l) (b := b + 1) fun {i blk'} hi ↦ by
      rw [Nat.add_right_comm, Nat.add_assoc]
      exact hblocks (by rw [List.getElem?_cons_succ]; exact hi)
    rw [List.zipIdx_cons, List.map_cons, fillBlocks, hne, blockOps_ofBlock h hblk]
    simp only [Bool.false_eq_true, if_false, List.append_nil]
    rw [Graph.bind_firstOps h.sound h.laid hlt, ok_bind,
      Graph.addOperations_firstOps h.sound h.laid h.bound_eq hlt, List.length_cons,
      ← Nat.add_assoc, Nat.add_right_comm]
    exact hrest

/-! ## Names

A name that the form leaves out is the one that the position gives, so that a value is known under
its handle either way. -/

omit h in
theorem nameOr_numbered {letter : String}
    (hl : ∀ n, normalName (numbered letter n) = numbered letter n) (hne : letter ≠ "")
    (n k : Nat) : nameOr (numbered letter n) letter k = numbered letter n := by
  rw [nameOr, hl]
  simp only [numbered_ne_empty hne, Bool.false_eq_true, if_false]

omit h in
private theorem nameOr_label {b : BlockIndex} (hb : b < noHandle) :
    nameOr b.text "b" b = numbered "b" b := by
  rw [text_block hb, nameOr_numbered normalName_label (by decide)]

omit h in
private theorem nameOr_value {i : OpIndex} (hi : i < noHandle) (op : Operation) :
    nameOr (OpEntry.ofOperation i op).value "v" i = numbered "v" i := by
  have hvalue : (OpEntry.ofOperation i op).value = if op.isTerminator then "" else i.text := by
    obtain ⟨a, inputs⟩ := op
    cases a <;> rfl
  rw [hvalue]
  split
  · have hempty : normalName "" = "" := by decide +kernel
    rw [nameOr, hempty]
    rfl
  · rw [text_op hi, nameOr_numbered normalName_value (by decide)]

theorem labels_ofGraph : (GraphEntry.ofGraph g).labels = (scopeOf g).labels := by
  refine List.ext_getElem (by simp [GraphEntry.labels, GraphEntry.ofGraph, scopeOf, handleScope,
    Graph.blockCount]) fun b hb hb' ↦ ?_
  have hlt : b < g.blockCount := by simpa [scopeOf, handleScope] using hb'
  simp only [GraphEntry.labels, GraphEntry.ofGraph, scopeOf, handleScope, List.getElem_map,
    List.getElem_zipIdx, List.getElem_range, Nat.zero_add, BlockEntry.ofBlock]
  exact nameOr_label (Nat.lt_of_lt_of_le hlt h.sound.blocks_le)

private theorem ops_ofBlock_eq_map {b : BlockIndex} {blk : Block} (hblk : g.blocks[b]? = some blk) :
    (BlockEntry.ofBlock g b blk).ops
      = (g.span b).toList.map fun i ↦ .ofOperation i (g.ops[i]?.getD .dead) := by
  rw [Graph.span_of_block hblk, ← List.filterMap_eq_map', BlockEntry.ofBlock]
  refine List.filterMap_congr fun i hi ↦ ?_
  rw [← Graph.span_of_block hblk] at hi
  obtain ⟨op, hop⟩ := Graph.exists_op (h.sound.lt_of_mem_span hi)
  rw [hop]
  rfl

private theorem flatMap_ops_ofGraph : (GraphEntry.ofGraph g).blocks.flatMap (·.ops)
    = (List.range g.opCount).map fun i ↦ .ofOperation i (g.ops[i]?.getD .dead) := by
  have hblocks : ∀ e ∈ g.blocks.toList.zipIdx, (BlockEntry.ofBlock g e.2 e.1).ops
      = (g.span e.2).toList.map fun i ↦ .ofOperation i (g.ops[i]?.getD .dead) := by
    rintro ⟨blk, b⟩ he
    refine ops_ofBlock_eq_map h ?_
    rw [← Array.getElem?_toList]
    exact List.mk_mem_zipIdx_iff_getElem?.mp he
  rw [← h.laid.ops_eq, Graph.opsOf, List.map_flatMap, GraphEntry.ofGraph, List.flatMap_map,
    List.flatMap_congr hblocks,
    ← List.flatMap_map Prod.snd fun b ↦ (g.span b).toList.map fun i ↦
      OpEntry.ofOperation i (g.ops[i]?.getD .dead),
    List.zipIdx_map_snd, Array.length_toList, List.range_eq_range', Graph.blockCount]

theorem values_ofGraph : (GraphEntry.ofGraph g).values = (scopeOf g).values := by
  rw [GraphEntry.values, flatMap_ops_ofGraph h]
  refine List.ext_getElem (by simp [scopeOf, handleScope]) fun i hi hi' ↦ ?_
  have hlt : i < g.opCount := by simpa [scopeOf, handleScope] using hi'
  simp only [scopeOf, handleScope, List.getElem_map, List.getElem_zipIdx, List.getElem_range,
    Nat.zero_add]
  exact nameOr_value (Nat.lt_of_lt_of_le hlt h.sound.ops_le) _

private theorem nodup_ofGraph :
    (GraphEntry.ofGraph g).labels.Nodup ∧ (GraphEntry.ofGraph g).values.Nodup := by
  rw [labels_ofGraph h, values_ofGraph h]
  exact ⟨nodup_numbered "b" g.blockCount, nodup_numbered "v" g.opCount⟩

/-! ## The whole graph

Kinds, names and blocks taken together: reading what was written fills one block after the other, as
the restored graph is filled. -/

omit h in
private theorem zipIdx_ofGraph (g : Graph) : (GraphEntry.ofGraph g).blocks.zipIdx
    = g.blocks.toList.zipIdx.map fun e ↦ (.ofBlock g e.2 e.1, e.2) := by
  refine List.ext_getElem (by simp [GraphEntry.ofGraph]) fun i _ _ ↦ ?_
  simp [GraphEntry.ofGraph]

private theorem kinds_ofGraph :
    ∀ b ∈ (GraphEntry.ofGraph g).blocks, ∃ k, kindOf? b.kind = some k := by
  rintro _ hb
  obtain ⟨⟨blk, b⟩, he, rfl⟩ := List.mem_map.mp hb
  have hblk : g.blocks[b]? = some blk := by
    rw [← Array.getElem?_toList]
    exact List.mk_mem_zipIdx_iff_getElem?.mp he
  exact ⟨blk.kind, kindOf?_text (h.kind hblk)⟩

private theorem foldlM_addBlock_ofGraph :
    (GraphEntry.ofGraph g).blocks.foldlM
      (fun g' b ↦ Graph.addBlock g' ((kindOf? b.kind).getD .entry) b.deferred) (.empty g.name)
      = .ok (g.firstOps 0 none) := by
  refine Graph.foldlM_addBlock_blocks (fun b : BlockEntry ↦ (kindOf? b.kind).getD .entry)
    BlockEntry.deferred h.sound ?_
  rw [GraphEntry.ofGraph, List.map_map]
  refine List.ext_getElem (by simp) fun b hb _ ↦ ?_
  have hlt : b < g.blocks.size := by simpa using hb
  simp [kindOf?_text (h.kind (Array.getElem?_eq_getElem hlt)), BlockEntry.ofBlock]

private theorem graph_of_blocks {name : String} (hname : (normalName name).toUTF8 = g.name) :
    (GraphEntry.mk name (GraphEntry.ofGraph g).blocks).graph = .ok g.restored := by
  have hblocks : ∀ {i : Nat} {blk : Block}, g.blocks.toList[i]? = some blk →
      g.blocks[0 + i]? = some blk := fun {i blk} hi ↦ by
    rwa [Nat.zero_add, ← Array.getElem?_toList]
  have hne : (GraphEntry.ofGraph g).blocks ≠ [] := by
    rw [← List.length_pos_iff, GraphEntry.ofGraph, List.length_map, List.length_zipIdx,
      Array.length_toList]
    exact h.pos
  have hfill := fillBlocks_ofBlock h hblocks
  rw [Nat.zero_add, Array.length_toList, ← Graph.blockCount, h.laid.offset_blockCount,
    Graph.firstOps_all h.sound h.bound_eq, ← zipIdx_ofGraph] at hfill
  have hscope : scopeOf g
      = ⟨(GraphEntry.ofGraph g).labels, (GraphEntry.ofGraph g).values⟩ := by
    rw [labels_ofGraph h, values_ofGraph h]
  rw [hscope] at hfill
  exact graph_eq_ok_iff.mpr ⟨hne, nodup_ofGraph h, kinds_ofGraph h, g.firstOps 0 none,
    hname.symm ▸ foldlM_addBlock_ofGraph h, hfill⟩

/-- The entry of a tidy graph gives the restored graph, under the normal form of its name. -/
theorem graph_ofGraph : (GraphEntry.ofGraph g).graph
    = .ok { g.restored with name := (normalName (textOf g.name)).toUTF8 } := by
  generalize hname : normalName (textOf g.name) = s
  exact graph_of_blocks (h.rename s.toUTF8) (congrArg String.toUTF8 hname)

end Graph

end Flowgraph.Textual
