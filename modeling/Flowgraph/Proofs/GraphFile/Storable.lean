import Flowgraph.GraphFile.Textual
import Flowgraph.Proofs.Graph.Restoring
import Flowgraph.Proofs.Order.Deferral

/-!
# Graphs that files can hold

A graph in memory can hold more than a graph file: codes without a meaning, inputs that a jump has
no use for, operations that stand in another order than their blocks. A binary file leaves out
these. A textual file also leaves out mnemonics that are no text or that a reader would take for a
keyword. `Operation.Recordable` and `Operation.Storable` say which operations the two can hold, and
`Graph.Tidy` says it of a whole graph, for one or the other.

A graph that was read from a file is tidy, and it stays so when its blocks are renumbered or marked
as deferred.
-/

namespace Flowgraph

/-- The names of operations that are more than mnemonics. -/
def Textual.keywords : List String := ["goto", "branch", "phi", "call", "return", "dead"]

/-- A mnemonic that is read back as it is written. -/
structure Textual.Mnemonic (m : ByteArray) (name : String) : Prop where
  eq_utf8 : m = name.toUTF8
  ne_empty : name ≠ ""
  trim_eq : Text.trim name = name
  not_keyword : Text.lower name ∉ Textual.keywords

/-- An action without the blocks that it refers to. -/
def Action.bare (a : Action) : Action := a.renamed fun _ ↦ 0

private theorem Action.bare_renamed (a : Action) (β : BlockIndex → BlockIndex) :
    (a.renamed β).bare = a.bare := by
  cases a <;> rfl

namespace Operation

/-- An operation that a binary graph file can hold. -/
def Recordable (op : Operation) : Prop :=
  match op.action with
  | .goto _ | .dead => op.inputs = []
  | .branch _ _ hint => (∃ cond, op.inputs = [cond]) ∧ ∀ c, hint ≠ .reserved c
  | .phi rep => ∀ c, rep ≠ .reserved c
  | .reserved _ => False
  | _ => True

/-- The names in an operation are texts that are read back as they are written. -/
def Named (op : Operation) : Prop :=
  match op.action with
  | .other m _ => ∃ name, Textual.Mnemonic m name
  | .call callee => ∃ s : String, callee = s.toUTF8 ∧ s ≠ ""
  | _ => True

/-- An operation that both forms of graph files can hold. -/
def Storable (op : Operation) : Prop := op.Recordable ∧ op.Named

/-- A property of operations that has nothing to do with the names of blocks and values and, for a
phi, with how many values there are. Jumps have it. -/
structure Lasting (P : Operation → Prop) : Prop where
  goto : ∀ t, P (.goto t)
  bare : ∀ {a : Action} {inputs : List OpIndex}, P ⟨a.bare, inputs⟩ ↔ P ⟨a, inputs⟩
  inputs : ∀ {op : Operation} {inputs : List OpIndex}, P op →
    op.isPhi = true ∨ inputs.length = op.inputs.length → P { op with inputs }

theorem Lasting.of_bare {P : Operation → Prop} (hP : Lasting P) {op op' : Operation} (h : P op)
    (haction : op'.action.bare = op.action.bare)
    (hinputs : op.isPhi = true ∨ op'.inputs.length = op.inputs.length) : P op' := by
  obtain ⟨a', inputs'⟩ := op'
  have hbare := hP.bare.mpr (hP.inputs h hinputs)
  rw [← haction] at hbare
  exact hP.bare.mp hbare

private theorem Lasting.renamed {P : Operation → Prop} (hP : Lasting P) {op : Operation} (h : P op)
    (β : BlockIndex → BlockIndex) (ω : OpIndex → OpIndex) : P (op.renamed β ω) :=
  hP.of_bare h (Action.bare_renamed op.action β) (Or.inr (by simp))

theorem lasting_recordable : Lasting Recordable where
  goto _ := rfl
  bare {a inputs} := by cases a <;> exact Iff.rfl
  inputs {op inputs'} h hinputs := by
    obtain ⟨a, inputs⟩ := op
    cases a with
    | goto t =>
      have hnil : inputs = [] := h
      subst hnil
      exact List.length_eq_zero_iff.mp (hinputs.resolve_left (by simp [isPhi]))
    | branch t f hint =>
      obtain ⟨⟨cond, rfl⟩, hhint⟩ := h
      exact ⟨List.length_eq_one_iff.mp (hinputs.resolve_left (by simp [isPhi])), hhint⟩
    | dead =>
      have hnil : inputs = [] := h
      subst hnil
      exact List.length_eq_zero_iff.mp (hinputs.resolve_left (by simp [isPhi]))
    | _ => exact h

theorem lasting_storable : Lasting Storable where
  goto t := ⟨lasting_recordable.goto t, trivial⟩
  bare {a inputs} := by cases a <;> exact Iff.rfl
  inputs h hinputs := ⟨lasting_recordable.inputs h.1 hinputs, h.2⟩

end Operation

namespace Graph

/-- A graph with its operations block after block, each of which has a property and takes values of
the graph. -/
structure Tidy (P : Operation → Prop) (g : Graph) : Prop where
  sound : g.Sound
  bound_eq : g.bound = none
  laid : g.Laid
  pos : 0 < g.blockCount
  values : g.ValuesExist
  kind : ∀ {b : BlockIndex} {blk : Block}, g.blocks[b]? = some blk → ∀ c, blk.kind ≠ .reserved c
  op : ∀ {i : OpIndex} {op : Operation}, g.ops[i]? = some op → P op

variable {g g' : Graph} {P Q : Operation → Prop}

theorem Tidy.imp (h : g.Tidy P) (hPQ : ∀ op, P op → Q op) : g.Tidy Q :=
  { h with op := fun hop ↦ hPQ _ (h.op hop) }

theorem Tidy.rename (h : g.Tidy P) (name : ByteArray) : Tidy P { g with name } := by
  have halike : Alike g { g with name } := ⟨fun _ ↦ rfl, rfl, fun _ ↦ rfl, rfl, rfl⟩
  exact {
    sound := halike.sound h.sound
    bound_eq := h.bound_eq
    laid := halike.laid h.laid
    pos := h.pos
    values := h.values
    kind := h.kind
    op := h.op }

/-- Renumbering makes a graph tidy whose blocks are filled and whose operations have a lasting
property. -/
theorem tidy_of_reorder (hP : Operation.Lasting P) (hg : g.Sound) (hpos : 0 < g.blockCount)
    (hspan : ∀ {b : BlockIndex} {blk : Block}, g.blocks[b]? = some blk → blk.span?.isSome)
    (hkind : ∀ {b : BlockIndex} {blk : Block}, g.blocks[b]? = some blk →
      ∀ c, blk.kind ≠ .reserved c)
    (hop : ∀ {i : OpIndex} {op : Operation}, g.ops[i]? = some op → P op)
    {perm : List BlockIndex} (hre : g.reorder perm = .ok g') : g'.Tidy P := by
  have hren := reorder_renamed hg hre
  obtain ⟨-, -, hvalues⟩ := of_reorder_ok hg hre
  exact {
    sound := hren.sound hg
    bound_eq := hren.bound_eq'
    laid := reorder_laid hg hspan hre
    pos := by rw [hren.blockCount_eq]; exact hpos
    values := by
      intro i' op' hop' j' hj'
      obtain ⟨i, op, hop, rfl, rfl⟩ := hren.exists_op hop'
      obtain ⟨j, hj, rfl⟩ := List.mem_map.mp hj'
      rw [hren.opCount_eq]
      exact hren.op_lt (hvalues hop j hj)
    kind := by
      intro b' blk' hblk'
      obtain ⟨b, blk, hblk, -, hsame, -⟩ := hren.exists_block hblk'
      rw [hsame]
      exact hkind hblk
    op := by
      intro i' op' hop'
      obtain ⟨i, op, hop₀, -, rfl⟩ := hren.exists_op hop'
      exact hP.renamed (hop hop₀) _ _ }

theorem Tidy.reorder (h : g.Tidy P) (hP : Operation.Lasting P) {perm : List BlockIndex}
    (hre : g.reorder perm = .ok g') : g'.Tidy P :=
  tidy_of_reorder hP h.sound h.pos h.laid.isSome_span h.kind h.op hre

theorem Tidy.flagged (h : g.Tidy P) (hflag : Flagged g g') : g'.Tidy P where
  sound := hflag.alike.sound h.sound
  bound_eq := by rw [hflag.alike.bound]; exact h.bound_eq
  laid := hflag.alike.laid h.laid
  pos := by rw [hflag.alike.blockCount_eq]; exact h.pos
  values {i op} hop j hj := by
    rw [hflag.ops_eq] at hop
    rw [hflag.alike.opCount_eq]
    exact h.values hop j hj
  kind {b blk'} hblk' := by
    obtain ⟨blk, hblk, hkind, -⟩ := hflag.block hblk'
    rw [hkind]
    exact h.kind hblk
  op {i op} hop := by
    rw [hflag.ops_eq] at hop
    exact h.op hop

end Graph

end Flowgraph
