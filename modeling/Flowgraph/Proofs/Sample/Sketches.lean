import Flowgraph.Proofs.Graph.Restoring
import Flowgraph.Proofs.Order.Fitness
import Flowgraph.Sample.Sketch
import Mathlib.Algebra.Ring.Nat

/-!
# Graphs of sketches

A sketch can be drawn if each block has up to two successors and all of them exist. Its graph is
there exactly if there is a handle for every operation, and it depicts the sketch: the blocks have
the kinds and the successors that the sketch says, and all that is in them is what leads to these
successors.

The graph is filled block by block. A `Drawing` says what it has become when the first `k` blocks
are filled, and while the next one is filled.
-/

namespace Flowgraph

open Flowgraph.Graph

/-! ## Counting predecessors

The kind of a block is decided by how many edges enter it and whether it is marked as a header, so
edges have to be counted while blocks are filled. -/

theorem Graph.length_predecessors_appended (g : Graph) (b t : BlockIndex) (op : Operation) :
    ((g.appended b op).predecessors t).length
      = (g.predecessors t).length + op.successors.count t := by
  have hnew : ((op.successors.map (Edge.mk b)).filter (·.target == t)).length
      = op.successors.count t := by
    rw [← List.countP_eq_length_filter, List.countP_map]
    rfl
  rw [predecessors, predecessors, List.length_map, List.length_map, appended, Array.toList_append,
    List.filter_append, List.length_append, List.toList_toArray, hnew]

namespace Sketch

variable {s : Sketch} {g g' : Graph} {k : Nat} {b : BlockIndex} {bound : Option BlockIndex}
  {ts : List BlockIndex} {op : Operation}

/-! ## Kinds of blocks -/

private theorem kind_eq_entry (s : Sketch) (b : BlockIndex) : s.kind b = .entry ↔ b = 0 := by
  rw [kind]
  split
  case isTrue hzero => exact iff_of_true rfl hzero
  case isFalse hne =>
    refine iff_of_false (fun heq ↦ ?_) hne
    split at heq
    · cases heq
    · split at heq <;> cases heq

theorem kind_eq_loop (s : Sketch) (b : BlockIndex) :
    s.kind b = .loop ↔ b ≠ 0 ∧ b ∈ s.headers := by
  rw [kind]
  split
  case isTrue hzero => exact iff_of_false nofun fun h ↦ h.1 hzero
  case isFalse hne =>
    split
    case isTrue hin => exact iff_of_true rfl ⟨hne, List.contains_iff_mem.mp hin⟩
    case isFalse hout =>
      refine iff_of_false (fun heq ↦ ?_) fun h ↦ hout (List.contains_iff_mem.mpr h.2)
      split at heq <;> cases heq

private theorem of_kind_eq_plain (h : s.kind b = .plain) : b ≠ 0 ∧ s.predecessorCount b ≤ 1 := by
  rw [kind] at h
  split at h
  case isTrue => cases h
  case isFalse hne =>
    split at h
    case isTrue => cases h
    case isFalse =>
      split at h
      case isTrue => cases h
      case isFalse hle => exact ⟨hne, Nat.not_lt.mp hle⟩

/-! ## Sketches with a graph

A block with up to two successors has one, two or three operations: a return, a jump, or a value
with a branch on it. -/

/-- A sketch of which there is a graph, if it is not too large. -/
structure Drawable (s : Sketch) : Prop where
  target_lt : ∀ ts ∈ s.successors, ∀ t ∈ ts, t < s.successors.length
  length_le_two : ∀ ts ∈ s.successors, ts.length ≤ 2

/-- The number of operations that lead to some successors: a branch needs a condition. -/
def opsFor (ts : List BlockIndex) : Nat := if ts.length = 2 then 2 else 1

def operationCount (s : Sketch) : Nat := (s.successors.map opsFor).sum

@[simp] theorem opsFor_nil : opsFor [] = 1 := rfl

@[simp] theorem opsFor_one (t : BlockIndex) : opsFor [t] = 1 := rfl

@[simp] theorem opsFor_two (t f : BlockIndex) : opsFor [t, f] = 2 := rfl

private theorem one_le_opsFor (ts : List BlockIndex) : 1 ≤ opsFor ts := by
  rw [opsFor]
  split <;> omega

private theorem length_le_operationCount (s : Sketch) : s.successors.length ≤ s.operationCount := by
  rw [operationCount]
  induction s.successors with
  | nil => exact Nat.le_refl _
  | cons ts l ih =>
    have := one_le_opsFor ts
    rw [List.map_cons, List.sum_cons, List.length_cons]
    omega

/-- An operation that is no phi and takes values below `n`, a branch just one. -/
structure Simple (n : Nat) (op : Operation) : Prop where
  isPhi_eq : op.isPhi = false
  input_lt : ∀ j ∈ op.inputs, j < n
  condition : ∀ {t f hint}, op.action = .branch t f hint → op.inputs.length = 1

private theorem Simple.mono {n n' : Nat} (h : Simple n op) (hn : n ≤ n') : Simple n' op :=
  ⟨h.isPhi_eq, fun j hj ↦ Nat.lt_of_lt_of_le (h.input_lt j hj) hn, h.condition⟩

private theorem simple_ret (n : Nat) : Simple n (.ret []) := ⟨rfl, nofun, nofun⟩

private theorem simple_goto (n : Nat) (t : BlockIndex) : Simple n (.goto t) := ⟨rfl, nofun, nofun⟩

theorem simple_pure (n : Nat) (mnemonic : ByteArray) : Simple n (.pure mnemonic []) :=
  ⟨rfl, nofun, nofun⟩

private theorem simple_branch {n cond : Nat} (h : cond < n) (t f : BlockIndex) (hint : Hint) :
    Simple n (.branch cond t f hint) :=
  ⟨rfl, fun _ hj ↦ List.mem_singleton.mp hj ▸ h, fun _ ↦ rfl⟩

/-! ## Filling the blocks

Every block is bound, gets its operations and is closed. The blocks that come later are there and
empty. -/

/-- The first `k` blocks of the sketch are in the graph, and the block `bound` is being filled. -/
structure Drawing (s : Sketch) (k : Nat) (bound : Option BlockIndex) (g : Graph) : Prop where
  sound : g.Sound
  bound_eq : g.bound = bound
  blockCount_eq : g.blockCount = s.successors.length
  kind_eq : ∀ {b : BlockIndex} {blk : Block}, g.blocks[b]? = some blk → blk.kind = s.kind b
  fresh : ∀ {b : BlockIndex} {blk : Block}, k ≤ b → bound ≠ some b → g.blocks[b]? = some blk →
    blk.span? = none
  filled : ∀ b < k, (g.span b).toList ≠ [] ∧ g.successors b = s.successors[b]?.getD []
  incoming : ∀ b, (g.predecessors b).length = (s.successors.take k).flatten.count b
  simple : ∀ {i : OpIndex} {op : Operation}, g.ops[i]? = some op → Simple g.opCount op

theorem Drawing.bind (h : Drawing s k none g) (hbind : g.bind k = .ok g') :
    Drawing s k (some k) g' ∧ g'.opCount = g.opCount := by
  have hsound := h.sound.bind hbind
  obtain ⟨-, -, rfl⟩ := bind_eq_ok hbind
  exact ⟨⟨hsound, rfl, h.blockCount_eq, h.kind_eq, fun hle _ ↦ h.fresh hle nofun, h.filled,
    h.incoming, h.simple⟩, rfl⟩

private theorem Drawing.exists_bind (h : Drawing s k none g) (hk : k < s.successors.length) :
    ∃ g', g.bind k = .ok g' := by
  obtain ⟨blk, hblk⟩ := exists_block (h.blockCount_eq.symm ▸ hk)
  have hspan := h.fresh (Nat.le_refl k) nofun hblk
  refine ⟨{ g with bound := some k }, ?_⟩
  rw [Graph.bind, h.bound_eq]
  simp only [block_eq_ok.mpr hblk, ok_bind, hspan]
  rfl

/-- What an operation in the bound block leaves as it was. -/
theorem Drawing.kind_appended (h : Drawing s k (some k) g) {blk : Block}
    (hblk : (g.appended k op).blocks[b]? = some blk) : blk.kind = s.kind b := by
  by_cases hb : b = k
  · subst hb
    obtain ⟨old, hold⟩ := exists_block (h.sound.bound_lt h.bound_eq)
    rw [appended_block_self hold] at hblk
    cases hblk
    exact (h.kind_eq hold : old.kind = s.kind b)
  · rw [appended_block_of_ne hb] at hblk
    exact h.kind_eq hblk

theorem Drawing.simple_appended (h : Drawing s k (some k) g) (hop : Simple (g.opCount + 1) op)
    {i : OpIndex} {op' : Operation} (hi : (g.appended k op).ops[i]? = some op') :
    Simple (g.appended k op).opCount op' := by
  rw [appended_opCount]
  rcases appended_op_cases hi with ⟨-, rfl⟩ | ⟨-, hold⟩
  · exact hop
  · exact (h.simple hold).mono (Nat.le_succ _)

theorem Drawing.filled_appended (h : Drawing s k (some k) g) (hb : b < k) :
    ((g.appended k op).span b).toList ≠ [] ∧
      (g.appended k op).successors b = s.successors[b]?.getD [] := by
  rw [appended_span_of_ne (Nat.ne_of_lt hb), appended_successors_of_ne h.sound (Nat.ne_of_lt hb)]
  exact h.filled b hb

/-- An operation in the midst of the bound block. -/
theorem Drawing.add (h : Drawing s k (some k) g) (hadd : g.addOperation op = .ok g')
    (hop : Simple (g.opCount + 1) op) (hend : op.isTerminator = false) :
    Drawing s k (some k) g' ∧ g'.opCount = g.opCount + 1 := by
  have hsound := h.sound.addOperation hadd
  obtain ⟨b, hb, -, -, rfl⟩ := addOperation_eq_ok hadd
  cases hb.symm.trans h.bound_eq
  exact ⟨{
    sound := hsound
    bound_eq := appended_bound_eq_some.mpr ⟨hend, rfl⟩
    blockCount_eq := by rw [appended_blockCount, h.blockCount_eq]
    kind_eq := h.kind_appended
    fresh := fun {b blk} hle hne hblk ↦ by
      have hother : b ≠ k := fun heq ↦ hne (congrArg some heq.symm)
      rw [appended_block_of_ne hother] at hblk
      exact h.fresh hle hne hblk
    filled := fun b hb ↦ h.filled_appended hb
    incoming := fun b ↦ by
      rw [length_predecessors_appended, h.incoming, Operation.successors_eq_nil hend,
        List.count_nil, Nat.add_zero]
    simple := h.simple_appended hop }, appended_opCount⟩

private theorem Drawing.close (h : Drawing s k (some k) g) (hts : s.successors[k]? = some ts)
    (hadd : g.addOperation op = .ok g') (hop : Simple (g.opCount + 1) op)
    (hend : op.isTerminator = true) (hsucc : op.successors = ts) :
    Drawing s (k + 1) none g' ∧ g'.opCount = g.opCount + 1 := by
  have hsound := h.sound.addOperation hadd
  obtain ⟨b, hb, -, -, rfl⟩ := addOperation_eq_ok hadd
  cases hb.symm.trans h.bound_eq
  exact ⟨{
    sound := hsound
    bound_eq := by rw [appended, if_pos hend]
    blockCount_eq := by rw [appended_blockCount, h.blockCount_eq]
    kind_eq := h.kind_appended
    fresh := fun {b blk} hle _ hblk ↦ by
      have hother : b ≠ k := Nat.ne_of_gt hle
      rw [appended_block_of_ne hother] at hblk
      exact h.fresh (Nat.le_of_succ_le hle) (fun heq ↦ hother (Option.some.inj heq).symm) hblk
    filled := fun b hb ↦ by
      rcases Nat.lt_succ_iff_lt_or_eq.mp hb with hlt | rfl
      · exact h.filled_appended hlt
      · rw [appended_span_toList_self op h.sound h.bound_eq,
          appended_successors_self op h.sound h.bound_eq, hts, hsucc]
        exact ⟨by simp, rfl⟩
    incoming := fun b ↦ by
      rw [length_predecessors_appended, h.incoming, List.take_add_one, hts, List.flatten_append,
        List.count_append, hsucc]
      simp
    simple := h.simple_appended hop }, appended_opCount⟩

/-- Filling the next block. -/
theorem Drawing.fill (h : Drawing s k none g) (hts : s.successors[k]? = some ts)
    (hfill : fill g k ts = .ok g') :
    Drawing s (k + 1) none g' ∧ g'.opCount = g.opCount + opsFor ts := by
  rw [Sketch.fill] at hfill
  obtain ⟨g₁, hbind, hfill⟩ := exists_of_bind_ok hfill
  obtain ⟨h₁, hcount⟩ := h.bind hbind
  rw [← hcount]
  split at hfill
  · exact h₁.close hts hfill (simple_ret _) rfl rfl
  · exact h₁.close hts hfill (simple_goto _ _) rfl rfl
  · rw [addOperations, List.foldlM_cons] at hfill
    obtain ⟨g₂, hcond, hfill⟩ := exists_of_bind_ok hfill
    rw [List.foldlM_cons] at hfill
    obtain ⟨g₃, hbranch, hfill⟩ := exists_of_bind_ok hfill
    cases hfill
    obtain ⟨h₂, hcount₂⟩ := h₁.add hcond (simple_pure _ _) rfl
    obtain ⟨h₃, hcount₃⟩ := h₂.close hts hbranch (simple_branch (by omega) _ _ _) rfl rfl
    exact ⟨h₃, by rw [hcount₃, hcount₂]; rfl⟩
  · cases hfill

private theorem Drawing.exists_add (h : Drawing s k (some k) g) (op : Operation)
    (hroom : g.opCount < noHandle) (htargets : ∀ t ∈ op.successors, t < s.successors.length) :
    ∃ g', g.addOperation op = .ok g' :=
  ⟨_, addOperation_of_bound h.bound_eq hroom (h.blockCount_eq.symm ▸ htargets)⟩

private theorem Drawing.exists_fill (h : Drawing s k none g) (hs : s.Drawable)
    (hts : s.successors[k]? = some ts) (hroom : g.opCount + opsFor ts ≤ noHandle) :
    ∃ g', Sketch.fill g k ts = .ok g' := by
  have hmem := List.mem_of_getElem? hts
  have htargets := hs.target_lt ts hmem
  have hlength := hs.length_le_two ts hmem
  obtain ⟨g₁, hbind⟩ := h.exists_bind (List.getElem?_eq_some_iff.mp hts).1
  obtain ⟨h₁, hcount⟩ := h.bind hbind
  rw [← hcount] at hroom
  rw [Sketch.fill, hbind, ok_bind]
  rcases ts with _ | ⟨t, _ | ⟨f, _ | ⟨t', ts⟩⟩⟩
  · exact h₁.exists_add _ hroom htargets
  · exact h₁.exists_add _ hroom htargets
  · rw [opsFor_two] at hroom
    obtain ⟨g₂, hcond⟩ := h₁.exists_add (.pure "cond".toUTF8 []) (by omega)
      fun _ ht ↦ absurd ht List.not_mem_nil
    obtain ⟨h₂, hcount₂⟩ := h₁.add hcond (simple_pure _ _) rfl
    obtain ⟨g₃, hbranch⟩ := h₂.exists_add (.branch g₁.opCount t f .unhinted) (by omega) htargets
    refine ⟨g₃, ?_⟩
    change addOperations g₁ _ = _
    rw [addOperations, List.foldlM_cons, hcond, ok_bind, List.foldlM_cons, hbranch]
    rfl
  · exact absurd hlength (by simp)

/-! ## The whole graph -/

private theorem Drawing.foldlM_fill : ∀ {l : List (List BlockIndex)} {k : Nat} {g g' : Graph},
    Drawing s k none g → s.successors.drop k = l →
    (l.zipIdx k).foldlM (fun g e ↦ Sketch.fill g e.2 e.1) g = .ok g' →
    Drawing s (k + l.length) none g' ∧ g'.opCount = g.opCount + (l.map opsFor).sum := by
  intro l
  induction l with
  | nil =>
    intro k g g' h _ hfold
    cases hfold
    exact ⟨h, rfl⟩
  | cons ts l ih =>
    intro k g g' h hdrop hfold
    have hts : s.successors[k]? = some ts := by rw [← List.head?_drop, hdrop, List.head?_cons]
    rw [List.zipIdx_cons, List.foldlM_cons] at hfold
    obtain ⟨g₁, hfill, hfold⟩ := exists_of_bind_ok hfold
    obtain ⟨h₁, hcount⟩ := h.fill hts hfill
    have hrest : s.successors.drop (k + 1) = l := by rw [← List.tail_drop, hdrop, List.tail_cons]
    obtain ⟨h', hcount'⟩ := ih h₁ hrest hfold
    rw [List.length_cons, List.map_cons, List.sum_cons, hcount', hcount, Nat.add_assoc]
    exact ⟨by rwa [show k + (l.length + 1) = k + 1 + l.length by omega], rfl⟩

private theorem Drawing.exists_foldlM_fill (hs : s.Drawable) :
    ∀ {l : List (List BlockIndex)} {k : Nat} {g : Graph}, Drawing s k none g →
    s.successors.drop k = l → g.opCount + (l.map opsFor).sum ≤ noHandle →
    ∃ g', (l.zipIdx k).foldlM (fun g e ↦ Sketch.fill g e.2 e.1) g = .ok g' := by
  intro l
  induction l with
  | nil => exact fun _ _ _ ↦ ⟨_, rfl⟩
  | cons ts l ih =>
    intro k g h hdrop hroom
    have hts : s.successors[k]? = some ts := by rw [← List.head?_drop, hdrop, List.head?_cons]
    rw [List.map_cons, List.sum_cons] at hroom
    obtain ⟨g₁, hfill⟩ := h.exists_fill hs hts (by omega)
    obtain ⟨h₁, hcount⟩ := h.fill hts hfill
    have hrest : s.successors.drop (k + 1) = l := by rw [← List.tail_drop, hdrop, List.tail_cons]
    obtain ⟨g', hfold⟩ := ih h₁ hrest (by omega)
    exact ⟨g', by rw [List.zipIdx_cons, List.foldlM_cons, hfill, ok_bind, hfold]⟩

/-- All blocks of the sketch, without operations. -/
def blank (s : Sketch) (name : ByteArray) : Graph :=
  { Graph.empty name with
    blocks := ((List.range s.successors.length).map fun b ↦ ⟨s.kind b, false, none⟩).toArray }

private theorem foldlM_addBlock_blank (name : ByteArray) (hroom : s.successors.length ≤ noHandle) :
    (List.range s.successors.length).foldlM (fun g b ↦ Graph.addBlock g (s.kind b) false)
      (.empty name) = .ok (s.blank name) := by
  have hlength : (Graph.empty name).blockCount + (List.range s.successors.length).length
      ≤ noHandle := by
    rw [List.length_range]
    exact (Nat.zero_add _).symm ▸ hroom
  refine (foldlM_addBlock hlength).trans ?_
  simp [blank, Graph.empty]

private theorem foldlM_addBlock_eq_ok {kind : BlockIndex → BlockKind} :
    ∀ {l : List BlockIndex} {g g' : Graph},
    l.foldlM (fun g b ↦ Graph.addBlock g (kind b) false) g = .ok g' →
    g' = { g with blocks := g.blocks ++ (l.map fun b ↦ ⟨kind b, false, none⟩).toArray } := by
  intro l
  induction l with
  | nil =>
    intro g g' h
    cases h
    simp
  | cons b l ih =>
    intro g g' h
    rw [List.foldlM_cons] at h
    obtain ⟨g₁, hadd, h⟩ := exists_of_bind_ok h
    obtain ⟨-, rfl⟩ := addBlock_eq_ok hadd
    rw [ih h]
    simp

theorem drawing_blank {name : ByteArray} (hsound : (s.blank name).Sound) :
    Drawing s 0 none (s.blank name) := by
  have hblock : ∀ {b : BlockIndex} {blk : Block}, (s.blank name).blocks[b]? = some blk →
      blk = ⟨s.kind b, false, none⟩ := by
    intro b blk hblk
    rw [blank, List.getElem?_toArray, List.getElem?_map, Option.map_eq_some_iff] at hblk
    obtain ⟨c, hc, rfl⟩ := hblk
    obtain ⟨-, rfl⟩ := List.getElem?_eq_some_iff.mp hc
    rw [List.getElem_range]
  refine ⟨hsound, rfl, ?_, fun hblk ↦ ?_, fun _ _ hblk ↦ ?_, nofun, fun b ↦ ?_, fun hop ↦ ?_⟩
  · simp [blank, blockCount]
  · rw [hblock hblk]
  · rw [hblock hblk]
  · simp [blank, Graph.empty, predecessors]
  · simp [blank, Graph.empty] at hop

theorem graph_eq (hs : s.Drawable) (name : ByteArray) : s.graph name = (do
    let g ← (List.range s.successors.length).foldlM (fun g b ↦ Graph.addBlock g (s.kind b) false)
      (.empty name)
    s.successors.zipIdx.foldlM (fun g e ↦ Sketch.fill g e.2 e.1) g) := by
  have hfits : s.successors.flatten.any (s.successors.length ≤ ·) = false := by
    rw [List.any_eq_false]
    intro t ht
    obtain ⟨ts, hts, ht⟩ := List.mem_flatten.mp ht
    simpa using hs.target_lt ts hts t ht
  rw [graph, if_neg (by rw [hfits]; decide)]

/-- The graph of a sketch is the finished drawing of it. -/
theorem drawing_of_graph (hs : s.Drawable) {name : ByteArray} (h : s.graph name = .ok g) :
    Drawing s s.successors.length none g ∧ g.opCount = s.operationCount := by
  rw [graph_eq hs] at h
  obtain ⟨g₀, hblocks, hfold⟩ := exists_of_bind_ok h
  have hsound : g₀.Sound := foldlM_keeps (fun hg h ↦ hg.addBlock h) (sound_empty name) hblocks
  have hblank : g₀ = s.blank name := by
    rw [foldlM_addBlock_eq_ok hblocks, blank]
    simp [Graph.empty]
  obtain ⟨hdrawn, hcount⟩ := (drawing_blank (hblank ▸ hsound)).foldlM_fill List.drop_zero
    (hblank ▸ hfold)
  rw [Nat.zero_add] at hdrawn
  exact ⟨hdrawn, hcount.trans (Nat.zero_add _)⟩

/-- There is a graph of a sketch that can be drawn exactly if there is a handle for every
operation. -/
theorem exists_graph_iff (hs : s.Drawable) (name : ByteArray) :
    (∃ g, s.graph name = .ok g) ↔ s.operationCount ≤ noHandle := by
  constructor
  · rintro ⟨g, hg⟩
    obtain ⟨hdrawn, hcount⟩ := drawing_of_graph hs hg
    exact hcount ▸ hdrawn.sound.ops_le
  · intro hroom
    have hblocks := foldlM_addBlock_blank (s := s) name (s.length_le_operationCount.trans hroom)
    have hsound : (s.blank name).Sound :=
      foldlM_keeps (fun hg h ↦ hg.addBlock h) (sound_empty name) hblocks
    rw [graph_eq hs, hblocks, ok_bind]
    exact (drawing_blank hsound).exists_foldlM_fill hs List.drop_zero
      ((Nat.zero_add _).trans_le hroom)

/-! ## Rules that hold in the graph

What verification asks of a single block follows from its kind and from what is in it. -/

section Drawn

variable (h : Drawing s s.successors.length none g)

include h

theorem Drawing.successors_eq {u : BlockIndex} (hu : u < s.successors.length) :
    g.successors u = s.successors[u]?.getD [] := (h.filled u hu).2

private theorem Drawing.length_predecessors (b : BlockIndex) :
    (g.predecessors b).length = s.predecessorCount b := by
  rw [h.incoming, List.take_length, predecessorCount]

private theorem Drawing.terminated {blk : Block} (hblk : g.blocks[b]? = some blk) :
    g.Terminated blk := by
  have hlt : b < s.successors.length := h.blockCount_eq ▸ lt_blockCount hblk
  have hb : g.bound ≠ some b := by
    rw [h.bound_eq]
    nofun
  have hspan := span_of_block hblk
  constructor
  · cases hlast : (g.span b).last? with
    | none => exact absurd (Span.last?_eq_none.mp hlast) (h.filled b hlt).1
    | some i =>
      obtain ⟨op, hop⟩ := exists_op (h.sound.lt_of_mem_span (Span.last?_mem hlast))
      exact ⟨i, op, hspan ▸ hlast, hop, h.sound.closed hlast hb hop⟩
  · intro i op hi hop hend
    rw [← hspan] at hi ⊢
    exact (h.sound.ends hi hop hend).1

private theorem Drawing.referring {i : OpIndex} (hop : g.ops[i]? = some op) : g.Referring op := by
  refine ⟨(h.simple hop).input_lt, fun t ht ↦ ?_, (h.simple hop).condition⟩
  obtain ⟨b, hmem⟩ := h.sound.exists_owner (lt_opCount hop)
  have hterm := (h.sound.ends hmem hop (Operation.isTerminator_of_mem_successors ht)).1
  rw [← successors_of_terminator hterm hop] at ht
  exact h.sound.target_lt ht

/-- If every block but the entry can be entered and the entry cannot, the graph is well formed. -/
theorem Drawing.wellFormed (hpos : 0 < s.successors.length)
    (hentered : ∀ b < s.successors.length, 0 < s.predecessorCount b ↔ b ≠ 0) : g.WellFormed where
  pos := h.blockCount_eq ▸ hpos
  terminated := h.terminated
  referring := h.referring
  joined {b blk} hblk := by
    have hlt : b < s.successors.length := h.blockCount_eq ▸ lt_blockCount hblk
    have hcount := h.length_predecessors b
    have hpreds : g.predecessors b = [] ↔ b = 0 := by
      rw [← List.length_eq_zero_iff, hcount]
      have := hentered b hlt
      lia
    have hkind : blk.kind = s.kind b := h.kind_eq hblk
    refine ⟨hkind ▸ s.kind_eq_entry b, hpreds, fun hplain ↦ ?_⟩
    obtain ⟨hne, hle⟩ := of_kind_eq_plain (hkind ▸ hplain)
    have := (hentered b hlt).mpr hne
    lia
  matched _ _ _ _ hop hphi := by
    rw [(h.simple hop).isPhi_eq] at hphi
    cases hphi

end Drawn

end Sketch

end Flowgraph
