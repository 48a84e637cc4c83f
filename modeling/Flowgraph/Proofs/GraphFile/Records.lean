import Flowgraph.Proofs.GraphFile.Binary
import Flowgraph.Proofs.MessagePack.RoundTrip

/-!
# Graph records come back

The record of a graph is made up of texts, lists and numbers of fixed width, so it is read back as
it was written as long as every length fits four bytes. For a tidy graph only the texts and the
numbers of inputs have to be asked for: `Graph.Compact`. Everything else is bounded by the handles.
-/

namespace Flowgraph

/-- The text and the number of inputs of an operation fit four bytes. -/
structure Operation.Compact (op : Operation) : Prop where
  inputs : op.inputs.length < 2 ^ 32
  text : (Binary.OpRecord.ofOperation op).text.size < 2 ^ 32

/-- All texts and numbers of inputs of a graph fit four bytes. -/
structure Graph.Compact (g : Graph) : Prop where
  name : g.name.size < 2 ^ 32
  op : ∀ {i : OpIndex} {op : Operation}, g.ops[i]? = some op → op.Compact

namespace Binary

open MessagePack (Plain Slots Value)

/-! ## Operations

A record of an operation fits if its texts and lists are short enough for four bytes of length.
Numbers of a fixed width always come back. -/

/-- The numbers in a record fit four bytes. -/
structure OpRecord.Fits (r : OpRecord) : Prop where
  inputs : ∀ i ∈ r.inputs, i < 2 ^ 32
  inputs_length : r.inputs.length < 2 ^ 32
  targets : ∀ t ∈ r.targets, t < 2 ^ 32
  targets_length : r.targets.length < 2 ^ 32
  text : r.text.size < 2 ^ 32

theorem toBits?_of_lt {v : Value} {n k : Nat} (hv : v.toInt? = some (n : Int)) (hn : n < 2 ^ k) :
    v.toBits? k = some n := by
  rw [Value.toBits?, hv, Option.map_some, Nat.one_shiftLeft, ← Int.natCast_mod,
    Nat.mod_eq_of_lt hn, Int.toNat_natCast]

theorem toBits?_word8 (n : UInt8) : (Value.word8 n).toBits? 8 = some n.toNat :=
  toBits?_of_lt rfl n.toNat_lt

private theorem toBits?_word16 (n : UInt16) : (Value.word16 n).toBits? 16 = some n.toNat :=
  toBits?_of_lt rfl n.toNat_lt

private theorem mapM_word32 : ∀ {l : List Nat}, (∀ i ∈ l, i < 2 ^ 32) →
    (l.map fun i ↦ Value.word32 i.toUInt32).mapM (·.toBits? 32) = some l
  | [], _ => rfl
  | i :: l, h => by
    rw [List.forall_mem_cons] at h
    have hword : (Value.word32 i.toUInt32).toInt? = some (i : Int) := by
      rw [Value.toInt?, Nat.toUInt32, UInt32.toNat_ofNat', Nat.mod_eq_of_lt h.1]
    rw [List.map_cons, List.mapM_cons, toBits?_of_lt hword h.1, mapM_word32 h.2]
    rfl

private theorem indices?_indices {l : List Nat} (h : ∀ i ∈ l, i < 2 ^ 32) :
    indices? (indices l) = some l := by
  cases l with
  | nil => rfl
  | cons i l => exact mapM_word32 h

private theorem plain_indices {l : List Nat} (h : l.length < 2 ^ 32) : Plain (indices l) := by
  refine MessagePack.plain_listOrNil (by rwa [List.length_map]) ?_
  simp only [List.forall_mem_map]
  exact fun i _ ↦ .word32 _

private theorem OpRecord.ofValue?_value {r : OpRecord} (h : r.Fits) (old : OpRecord) :
    OpRecord.ofValue? r.value old = some r := by
  rw [OpRecord.ofValue?, OpRecord.value, MessagePack.toRecord?_record (by decide) rfl]
  simp only [List.zip_cons_cons, List.zip_nil_left, List.foldlM_cons, List.foldlM_nil,
    indices?_indices h.inputs, indices?_indices h.targets, toBits?_word8, Value.toText?,
    Value.toBytes?, Value.toBool?, Option.map_some, Option.getD_some, Option.bind_eq_bind,
    Option.bind_some, Option.pure_def, Nat.toUInt8, UInt8.ofNat_toNat]

private theorem OpRecord.plain_value {r : OpRecord} (h : r.Fits) : Plain r.value := by
  refine MessagePack.plain_record (by simp) ?_ ?_
  · simp only [List.forall_mem_cons, List.not_mem_nil, false_imp_iff, implies_true, and_true]
    decide
  · simp only [List.forall_mem_cons, List.not_mem_nil, false_imp_iff, implies_true, and_true]
    exact ⟨.word8 _, plain_indices h.inputs_length, plain_indices h.targets_length, .str h.text,
      .word8 _, .bool _⟩

/-! ## Blocks and graphs

Lists of records are read into fresh slots, where nothing of an earlier reading can be left. -/

/-- A list of records in fresh slots, whether an empty one is written as nothing or not. -/
theorem slots?_map {α : Type} {zero : α} {read : Value → α → Option α} {f : α → Value} {l : List α}
    (h : ∀ a ∈ l, read (f a) zero = some a) :
    slots? zero read (.array (l.map f)) .empty = some (.ofList l) ∧
      slots? zero read (.listOrNil (l.map f)) .empty = some (.ofList l) := by
  have hread : slots? zero read (.array (l.map f)) .empty = some (.ofList l) := by
    rw [slots?, MessagePack.ofValue?_array h]
    rfl
  refine ⟨hread, ?_⟩
  cases l with
  | nil => rfl
  | cons a l => exact hread

/-- The lengths in a block record fit four bytes. -/
structure BlockRecord.Fits (r : BlockRecord) : Prop where
  ops : ∀ o ∈ r.ops.items, o.Fits
  length : r.ops.items.length < 2 ^ 32
  hidden : r.ops.hidden = []

private theorem BlockRecord.ofValue?_value {r : BlockRecord} (h : r.Fits) :
    BlockRecord.ofValue? r.value .zero = some r := by
  have hops : slots? .zero OpRecord.ofValue? (.listOrNil (r.ops.items.map OpRecord.value)) .empty
      = some r.ops := by
    rw [(slots?_map fun o ho ↦ OpRecord.ofValue?_value (h.ops o ho) .zero).2, Slots.ofList,
      ← h.hidden]
  rw [BlockRecord.ofValue?, BlockRecord.value, MessagePack.toRecord?_record (by decide) rfl]
  simp only [List.zip_cons_cons, List.zip_nil_left, List.foldlM_cons, List.foldlM_nil,
    BlockRecord.zero, hops, toBits?_word8, Value.toBool?, Option.bind_eq_bind, Option.bind_some,
    Option.pure_def, Nat.toUInt8, UInt8.ofNat_toNat]

private theorem BlockRecord.plain_value {r : BlockRecord} (h : r.Fits) : Plain r.value := by
  have hops : Plain (.listOrNil (r.ops.items.map OpRecord.value)) := by
    refine MessagePack.plain_listOrNil (by rw [List.length_map]; exact h.length) ?_
    simp only [List.forall_mem_map]
    exact fun o ho ↦ OpRecord.plain_value (h.ops o ho)
  refine MessagePack.plain_record (by simp) ?_ ?_
  · simp only [List.forall_mem_cons, List.not_mem_nil, false_imp_iff, implies_true, and_true]
    decide
  · simp only [List.forall_mem_cons, List.not_mem_nil, false_imp_iff, implies_true, and_true]
    exact ⟨.word8 _, .bool _, hops⟩

/-- The lengths in a graph record fit four bytes. -/
structure GraphRecord.Fits (r : GraphRecord) : Prop where
  name : r.name.size < 2 ^ 32
  blocks : ∀ b ∈ r.blocks.items, b.Fits
  length : r.blocks.items.length < 2 ^ 32
  hidden : r.blocks.hidden = []

private theorem GraphRecord.ofValue?_value {r : GraphRecord} (h : r.Fits) :
    GraphRecord.ofValue? r.value = some r := by
  have hblocks : slots? .zero BlockRecord.ofValue? (.array (r.blocks.items.map BlockRecord.value))
      .empty = some r.blocks := by
    rw [(slots?_map fun b hb ↦ BlockRecord.ofValue?_value (h.blocks b hb)).1, Slots.ofList,
      ← h.hidden]
  rw [GraphRecord.ofValue?, GraphRecord.value, MessagePack.toRecord?_record (by decide) rfl]
  simp only [List.zip_cons_cons, List.zip_nil_left, List.foldlM_cons, List.foldlM_nil,
    GraphRecord.zero, hblocks, toBits?_word16, Value.toText?, Value.toBytes?, Option.map_some,
    Option.getD_some, Option.bind_eq_bind, Option.bind_some, Option.pure_def, Nat.toUInt16,
    UInt16.ofNat_toNat]

private theorem GraphRecord.plain_value {r : GraphRecord} (h : r.Fits) : Plain r.value := by
  have hblocks : Plain (.array (r.blocks.items.map BlockRecord.value)) := by
    refine .array (by rw [List.length_map]; exact h.length) ?_
    simp only [List.forall_mem_map]
    exact fun b hb ↦ BlockRecord.plain_value (h.blocks b hb)
  refine MessagePack.plain_record (by simp) ?_ ?_
  · simp only [List.forall_mem_cons, List.not_mem_nil, false_imp_iff, implies_true, and_true]
    decide
  · simp only [List.forall_mem_cons, List.not_mem_nil, false_imp_iff, implies_true, and_true]
    exact ⟨.word16 _, .str h.name, hblocks⟩

/-! ## Tidy graphs

The handles of a graph bound the number of its blocks and operations, which is below what a length
of four bytes can say. Only texts and lists of inputs can be too long. -/

variable {g : Graph}

private theorem fits_ofOperation {P : Operation → Prop} (hg : g.Tidy P) {i : OpIndex}
    {op : Operation} (hop : g.ops[i]? = some op) (h : op.Compact) :
    (OpRecord.ofOperation op).Fits where
  inputs j hj := by
    rw [inputs_ofOperation] at hj
    exact Nat.lt_of_lt_of_le (hg.values hop j hj)
      (Nat.le_trans hg.sound.ops_le (by decide))
  inputs_length := by
    rw [inputs_ofOperation]
    exact h.inputs
  targets t ht := by
    rw [targets_ofOperation] at ht
    obtain ⟨b, hb⟩ := hg.sound.exists_owner (Array.getElem?_eq_some_iff.mp hop).1
    have hend := (hg.sound.ends hb hop (Operation.isTerminator_of_mem_successors ht)).1
    rw [← Graph.successors_of_terminator hend hop] at ht
    exact Nat.lt_of_lt_of_le (hg.sound.target_lt ht)
      (Nat.le_trans hg.sound.blocks_le (by decide))
  targets_length := by
    rw [targets_ofOperation]
    exact Nat.lt_of_le_of_lt op.length_successors_le (by decide)
  text := h.text

private theorem length_span_le (hg : g.Sound) (b : BlockIndex) : (g.span b).length ≤ g.opCount := by
  rcases Nat.eq_zero_or_pos (g.span b).length with hzero | hpos
  · rw [hzero]
    exact Nat.zero_le _
  · rw [Span.length] at hpos ⊢
    have hlast : (g.span b).stop - 1 ∈ (g.span b).toList := Span.mem_toList.mpr (by lia)
    have hlt := hg.lt_of_mem_span hlast
    lia

private theorem fits_ofGraph {P : Operation → Prop} (hg : g.Tidy P) (h : g.Compact) :
    (GraphRecord.ofGraph g).Fits where
  name := h.name
  hidden := rfl
  length := by
    change (g.blocks.toList.map (BlockRecord.ofBlock g)).length < _
    rw [List.length_map, Array.length_toList]
    exact Nat.lt_of_le_of_lt hg.sound.blocks_le (by decide)
  blocks := by
    change ∀ r ∈ g.blocks.toList.map (BlockRecord.ofBlock g), r.Fits
    rw [List.forall_mem_map]
    intro blk hblk
    obtain ⟨b, hb⟩ := List.getElem?_of_mem hblk
    rw [Array.getElem?_toList] at hb
    have hitems := items_ofBlock hb
    refine ⟨?_, ?_, rfl⟩
    · rw [hitems, List.forall_mem_map]
      intro op hop
      obtain ⟨i, -, hi⟩ := List.mem_filterMap.mp hop
      exact fits_ofOperation hg hi (h.op hi)
    · rw [hitems, List.length_map, Graph.length_opsIn hg.sound]
      exact Nat.lt_of_le_of_lt (length_span_le hg.sound b)
        (Nat.lt_of_le_of_lt hg.sound.ops_le (by decide))

/-- The binary form of a compact tidy graph holds the record of the graph. -/
theorem ofValue?_encode {P : Operation → Prop} (hg : g.Tidy P) (h : g.Compact) :
    (MessagePack.ofBytes? (encode g)).bind GraphRecord.ofValue? = some (GraphRecord.ofGraph g) := by
  have hfits := fits_ofGraph hg h
  rw [encode, MessagePack.ofBytes?_toBytes (GraphRecord.plain_value hfits), Option.bind_some,
    GraphRecord.ofValue?_value hfits]

end Binary

end Flowgraph
