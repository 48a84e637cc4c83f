import Flowgraph.GraphFile.Format
import Flowgraph.Proofs.GraphFile.Decoded

/-!
# What reading a graph file comes to

Reading a file, whatever its bytes are, gives a graph or an error. A graph that comes out is
`Orderly`: every block ends in its only terminator, every reference leads somewhere, and operations
and predecessors stand in the order of the blocks. All that `violations` can still find in it
concerns predecessors and phis. An error says something: a list of faults or of unknown keys is
never empty.

## Why building never breaks off

Reading a textual graph goes on after a fault, with the first block in the place of an unknown one
and an operation without meaning in the place of one that cannot be told. So the graph is also built
when nothing will come of it, and every step of building has to go through. A block is bound only
when the blocks before it are closed or were skipped, and it is empty then; this is `Awaiting`. A
block whose terminator is misplaced is given up before any of it is built. What is left is the range
of handles, which only a file with more blocks or operations than there are handles exceeds.
-/

namespace Flowgraph

/-! ## Orderly graphs

A graph that a reader has filled has its terminators and its references in order. What it may lack
is said by the violations about predecessors and phis, which look at several blocks at once. -/

/-- Does a violation concern the predecessors or the phis of a block? -/
def Violation.isJoining : Violation → Bool
  | .entryKind _ | .entryPredecessors _ | .secondEntry _ | .noPredecessors _
  | .plainPredecessors _ _ | .strayPhi _ _ _ | .phiArity _ _ _ _ => true
  | _ => false

namespace Graph

variable {g g' : Graph}

/-- A graph as files hold it. -/
structure Orderly (g : Graph) : Prop where
  pos : 0 < g.blockCount
  bound_eq : g.bound = none
  /-- The last operation of a block is its only terminator. -/
  terminated : ∀ {b : BlockIndex} {blk : Block}, g.blocks[b]? = some blk → g.Terminated blk
  /-- Inputs and targets exist, and a branch has one condition. -/
  referring : ∀ {i : OpIndex} {op : Operation}, g.ops[i]? = some op → g.Referring op
  /-- The operations are numbered block after block. -/
  ops_eq : g.opsOf (List.range g.blockCount) = List.range g.opCount
  /-- Predecessors come in the order of the blocks. -/
  predecessors : ∀ b, (g.predecessors b).Pairwise (· ≤ ·)
  violations : ∀ v ∈ g.violations, v.isJoining = true

private theorem isJoining_of_mem_predecessorViolations (g : Graph) (b : BlockIndex) (blk : Block) :
    ∀ v ∈ g.predecessorViolations b blk, v.isJoining = true := by
  rw [predecessorViolations]
  split_ifs <;> simp [Violation.isJoining]

private theorem isJoining_of_mem_phiViolations {b : BlockIndex} {blk : Block} {v : Violation}
    (hv : v ∈ g.phiViolations b blk) : v.isJoining = true := by
  rw [phiViolations, List.mem_filterMap] at hv
  obtain ⟨⟨i, op⟩, -, hv⟩ := hv
  simp only at hv
  split_ifs at hv <;> cases hv <;> rfl

/-- With terminators and references in order, only predecessors and phis can be amiss. -/
private theorem isJoining_of_mem_violations (hpos : 0 < g.blockCount)
    (hterm : ∀ {b : BlockIndex} {blk : Block}, g.blocks[b]? = some blk → g.Terminated blk)
    (href : ∀ {i : OpIndex} {op : Operation}, g.ops[i]? = some op → g.Referring op)
    {v : Violation} (hv : v ∈ g.violations) : v.isJoining = true := by
  rw [Graph.violations, if_neg (Nat.ne_of_gt hpos)] at hv
  simp only [List.mem_append, List.mem_flatMap, Prod.exists, List.mem_zipIdx_iff_getElem?,
    Array.getElem?_toList] at hv
  rcases hv with ((⟨blk, b, hblk, hv⟩ | ⟨op, i, hop, hv⟩) | ⟨blk, b, -, hv⟩) | ⟨blk, b, -, hv⟩
  · rw [terminatorViolations_eq_nil.mpr (hterm hblk)] at hv
    cases hv
  · rw [referenceViolations_eq_nil.mpr (href hop)] at hv
    cases hv
  · exact isJoining_of_mem_predecessorViolations g b blk v hv
  · exact isJoining_of_mem_phiViolations hv

end Graph

private theorem Operation.Recordable.condition {op : Operation} (h : op.Recordable)
    {t f : BlockIndex} {hint : Hint} (hop : op.action = .branch t f hint) :
    op.inputs.length = 1 := by
  rw [Operation.Recordable, hop] at h
  obtain ⟨⟨cond, hcond⟩, -⟩ := h
  rw [hcond, List.length_singleton]

/-- A graph that was read from a file is orderly. -/
theorem Decoded.orderly {P : Operation → Prop} {g : Graph} (h : Decoded P g)
    (hP : ∀ op, P op → op.Recordable) : g.Orderly := by
  have hg := h.tidy.sound
  have hterm : ∀ {b : BlockIndex} {blk : Block}, g.blocks[b]? = some blk → g.Terminated blk := by
    intro b blk hblk
    have hspan := h.tidy.laid.span_eq hg hblk
    have hpos := hg.span_pos hblk hspan
    obtain ⟨i, hi⟩ : ∃ i, blk.span.last? = some i := by
      refine Option.ne_none_iff_exists'.mp fun hnone ↦ ?_
      rw [Span.last?_eq_none, Block.span, hspan, Option.getD_some, ← List.length_eq_zero_iff,
        Span.length_toList, Span.length] at hnone
      lia
    rw [← Graph.span_of_block hblk] at hi
    obtain ⟨op, hop⟩ := Graph.exists_op (hg.lt_of_mem_span (Span.last?_mem hi))
    refine ⟨⟨i, op, Graph.span_of_block hblk ▸ hi, hop, hg.closed hi ?_ hop⟩,
      fun {j op'} hj hop' hend ↦ ?_⟩
    · rw [h.tidy.bound_eq]
      simp
    · rw [← Graph.span_of_block hblk] at hj ⊢
      exact (hg.ends hj hop' hend).1
  have href : ∀ {i : OpIndex} {op : Operation}, g.ops[i]? = some op → g.Referring op := by
    intro i op hop
    refine ⟨h.tidy.values hop, fun t ht ↦ ?_, (hP op (h.tidy.op hop)).condition⟩
    obtain ⟨b, hi⟩ := hg.exists_owner (Graph.lt_opCount hop)
    have hend := hg.ends hi hop (Operation.isTerminator_of_mem_successors ht)
    rw [← Graph.successors_of_terminator hend.1 hop] at ht
    exact hg.target_lt ht
  exact {
    pos := h.tidy.pos
    bound_eq := h.tidy.bound_eq
    terminated := hterm
    referring := href
    ops_eq := h.tidy.laid.ops_eq
    predecessors := h.tidy.laid.pairwise_predecessors hg h.edges_eq
    violations := fun v hv ↦ Graph.isJoining_of_mem_violations h.tidy.pos hterm href hv }

/-! ## Building block by block

Between two blocks no block is bound, and the blocks behind are still empty. So the next one can be
bound, its operations can be added as long as there are handles, and its terminator closes it. -/

namespace Graph

variable {g g' : Graph} {b : BlockIndex}

/-- No block is bound, and block `b` and the blocks behind it are empty. -/
structure Awaiting (g : Graph) (b : BlockIndex) : Prop where
  bound_eq : g.bound = none
  span?_eq : ∀ {c : BlockIndex} {blk : Block}, b ≤ c → g.blocks[c]? = some blk → blk.span? = none

theorem awaiting_empty (name : ByteArray) : (Graph.empty name).Awaiting 0 := ⟨rfl, by simp [empty]⟩

private theorem Awaiting.skip (h : g.Awaiting b) : g.Awaiting (b + 1) :=
  ⟨h.bound_eq, fun hle ↦ h.span?_eq (Nat.le_of_succ_le hle)⟩

private theorem Awaiting.addBlock (h : g.Awaiting b) {kind : BlockKind} {deferred : Bool}
    (hadd : g.addBlock kind deferred = .ok g') :
    g'.Awaiting b ∧ g'.blockCount = g.blockCount + 1 ∧ g'.opCount = g.opCount := by
  obtain ⟨-, rfl⟩ := addBlock_eq_ok hadd
  refine ⟨⟨h.bound_eq, fun {c blk} hle hblk ↦ ?_⟩, Array.size_push _, rfl⟩
  rw [Array.getElem?_push] at hblk
  split at hblk
  · cases hblk
    rfl
  · exact h.span?_eq hle hblk

/-- Adding blocks one after the other. -/
theorem Awaiting.addBlocks {ε α : Type} {f : Graph → α → Except ε Graph}
    (hf : ∀ {g a g'}, f g a = .ok g' → ∃ kind deferred, g.addBlock kind deferred = .ok g') :
    ∀ {l : List α} {g g' : Graph}, g.Awaiting b → l.foldlM f g = .ok g' →
      g'.Awaiting b ∧ g'.blockCount = g.blockCount + l.length ∧ g'.opCount = g.opCount := by
  intro l
  induction l with
  | nil =>
    intro g g' hg h
    cases h
    exact ⟨hg, rfl, rfl⟩
  | cons a l ih =>
    intro g g' hg h
    rw [List.foldlM_cons] at h
    obtain ⟨g₁, hadd, h⟩ := exists_of_bind_ok h
    obtain ⟨kind, deferred, hadd⟩ := hf hadd
    obtain ⟨hg₁, hblocks, hops⟩ := hg.addBlock hadd
    obtain ⟨hg', hblocks', hops'⟩ := ih hg₁ h
    exact ⟨hg', by rw [hblocks', hblocks, List.length_cons]; lia, hops'.trans hops⟩

theorem Awaiting.exists_bind (h : g.Awaiting b) (hb : b < g.blockCount) :
    g.bind b = .ok { g with bound := some b } := by
  obtain ⟨blk, hblk⟩ := exists_block hb
  rw [bind, h.bound_eq]
  simp only [block_eq_ok.mpr hblk, ok_bind]
  rw [h.span?_eq (Nat.le_refl b) hblk]
  rfl

private theorem block_of_addOperations {ops : List Operation} (hb : g.bound = some b)
    (hadd : g.addOperations ops = .ok g') {c : BlockIndex} (hc : c ≠ b) :
    g'.blocks[c]? = g.blocks[c]? := by
  have hkeeps := foldlM_keeps
    (P := fun h : Graph ↦ (∀ d, h.bound = some d → d = b) ∧ h.blocks[c]? = g.blocks[c]?)
    (fun {h op h'} hh hstep ↦ by
      obtain ⟨d, hd, -, -, rfl⟩ := addOperation_eq_ok hstep
      cases hh.1 d hd
      refine ⟨fun d' hd' ↦ ?_, (appended_block_of_ne hc).trans hh.2⟩
      rw [appended] at hd'
      split at hd'
      · cases hd'
      · exact (Option.some.inj hd').symm)
    ⟨fun d hd ↦ Option.some.inj (hd.symm.trans hb), rfl⟩ hadd
  exact hkeeps.2

/-- Filling the next block leaves the rest of the blocks as they were. -/
theorem Awaiting.fill (h : g.Awaiting b) {g₁ : Graph} (hbind : g.bind b = .ok g₁)
    {ops : List Operation} (hadd : g₁.addOperations ops = .ok g') (hne : ops ≠ [])
    (hend : ∀ op ∈ ops.getLast?, op.isTerminator = true) :
    g'.Awaiting (b + 1) ∧ g'.blockCount = g.blockCount ∧
      g'.opCount = g.opCount + ops.length := by
  have hadded := added_of_addOperations hadd
  obtain ⟨-, -, rfl⟩ := bind_eq_ok hbind
  have hlast := List.getLast?_eq_some_getLast hne
  refine ⟨⟨hadded.closed _ hlast (hend _ hlast), fun {c blk} hle hblk ↦ ?_⟩,
    hadded.blockCount_eq, ?_⟩
  · rw [block_of_addOperations rfl hadd (Nat.ne_of_gt hle)] at hblk
    exact h.span?_eq (Nat.le_of_succ_le hle) hblk
  · have hlen := congrArg List.length hadded.ops_eq
    simpa [opCount] using hlen

/-- The operations of a block, of which the last and only the last is a terminator. -/
def Ends (ops : List Operation) : Prop :=
  ∀ (i : Nat) (op : Operation), ops[i]? = some op → (op.isTerminator = true ↔ i + 1 = ops.length)

private theorem Ends.getLast {ops : List Operation} (h : Ends ops) :
    ∀ op ∈ ops.getLast?, op.isTerminator = true := by
  intro op hop
  have hne : ops ≠ [] := fun hnil ↦ by simp [hnil] at hop
  rw [List.getLast?_eq_getElem?] at hop
  have := List.length_pos_iff.mpr hne
  exact (h _ op hop).mpr (by lia)

private theorem exists_addOperations : ∀ {ops : List Operation} {g : Graph}, g.bound = some b → Ends
    ops → (∀ op ∈ ops, ∀ t ∈ op.successors, t < g.blockCount) → g.opCount + ops.length ≤ noHandle →
    ∃ g', g.addOperations ops = .ok g'
  | [], g, _, _, _, _ => ⟨g, rfl⟩
  | op :: ops, g, hb, hends, hts, hroom => by
    rw [List.forall_mem_cons] at hts
    rw [List.length_cons] at hroom
    have hadd := addOperation_of_bound hb (by lia) hts.1
    rw [addOperations, List.foldlM_cons, hadd, ok_bind]
    cases ops with
    | nil => exact ⟨_, rfl⟩
    | cons op' ops =>
      have hopen : op.isTerminator ≠ true := fun hend ↦ by
        have := (hends 0 op rfl).mp hend
        simp at this
      refine exists_addOperations ?_ (fun i op'' hi ↦ ?_) (fun op'' hop t ht ↦ ?_) ?_
      · rw [appended, if_neg hopen]
      · rw [hends (i + 1) op'' hi, List.length_cons (a := op)]
        lia
      · rw [appended_blockCount]
        exact hts.2 op'' hop t ht
      · rw [appended_opCount]
        lia

end Graph

/-! ## Textual files

Every check yields a result that can be built with, whatever it notes. A fault that was noted is
never lost, so that an error has at least one. -/

namespace Textual

open Checking
open Flowgraph.Graph (Awaiting)

/-- What is wrong with a file is said. Building breaks off only at a file with more blocks or
operations than there are handles. -/
def Error.Tells (bytes : ByteArray) : Error → Prop
  | .notADocument | .noBlocks => True
  | .unknownKeys keys => keys ≠ []
  | .faults l => l ≠ []
  | .breach _ => ∃ e, GraphEntry.ofBytes bytes = .ok e ∧
      (noHandle < e.blocks.length ∨ noHandle < (e.blocks.flatMap (·.ops)).length)

section Yields

variable {α β : Type}

/-- The result of a check has a property, whether anything is noted or not. -/
def Yields (x : Checking α) (P : α → Prop) : Prop := ∀ faults, P (x.run faults).1

theorem yields_pure {a : α} {P : α → Prop} (h : P a) : Yields (pure a) P := fun _ ↦ h

theorem Yields.bind {x : Checking α} {f : α → Checking β} {Q : α → Prop} {P : β → Prop}
    (hx : Yields x Q) (hf : ∀ a, Q a → Yields (f a) P) : Yields (x >>= f) P :=
  fun faults ↦ hf _ (hx faults) _

theorem yields_any (x : Checking α) : Yields x fun _ ↦ True := fun _ ↦ trivial

private theorem yields_orNote {found : Option α} {standIn : α} {P : α → Prop}
    (hfound : ∀ a, found = some a → P a) (hstandIn : P standIn) (f : OpFault) :
    Yields (orNote found standIn f) P := by
  cases found with
  | none => exact fun _ ↦ hstandIn
  | some a => exact yields_pure (hfound a rfl)

end Yields

variable {s : Scope}

/-- Every target exists, be it the stand-in. -/
theorem yields_block (hs : 0 < s.labels.length) (name : String) :
    Yields (s.block name) (· < s.labels.length) := by
  refine yields_orNote (P := (· < s.labels.length)) (fun b hb ↦ ?_) hs _
  obtain ⟨hlt, -⟩ := List.idxOf?_eq_some_iff.mp hb
  exact hlt

private theorem yields_branch (hs : 0 < s.labels.length) (e : OpEntry) (args : List OpIndex) :
    Yields (e.branch s args) fun op ↦ ∀ t ∈ op.successors, t < s.labels.length := by
  rw [OpEntry.branch.eq_def]
  split
  · refine (yields_any _).bind fun hint _ ↦ (yields_block hs _).bind fun t ht ↦
      (yields_block hs _).bind fun f hf ↦ yields_pure ?_
    simp [Operation.branch, Operation.successors, ht, hf]
  · exact (yields_any _).bind fun _ _ ↦ yields_pure (by simp [Operation.dead, Operation.successors])

private theorem yields_operation (hs : 0 < s.labels.length) (e : OpEntry) :
    Yields (e.operation s) fun op ↦ ∀ t ∈ op.successors, t < s.labels.length := by
  rw [OpEntry.operation]
  split
  · exact (yields_any _).bind fun _ _ ↦ yields_pure (by simp [Operation.dead, Operation.successors])
  · refine (yields_any _).bind fun args _ ↦ ?_
    split
    · refine (yields_block hs _).bind fun t ht ↦ yields_pure ?_
      simp [Operation.goto, Operation.successors, ht]
    · exact yields_branch hs e args
    · exact (yields_any _).bind fun rep _ ↦ yields_pure (by simp [Operation.successors])
    · split
      · exact (yields_any _).bind fun _ _ ↦ yields_pure (by simp [Operation.successors])
      · exact yields_pure (by simp [Operation.successors])
    · exact yields_pure (by simp [Operation.ret, Operation.successors])
    · exact yields_pure (by simp [Operation.dead, Operation.successors])
    · exact yields_pure (by simp [Operation.successors])

/-- What can be built of a block. -/
structure Buildable (s : Scope) (count : Nat) (ops : List Operation) : Prop where
  length_eq : ops.length = count
  ends : Graph.Ends ops
  target_lt : ∀ op ∈ ops, ∀ t ∈ op.successors, t < s.labels.length

private theorem buildable_of_blockOps (hs : 0 < s.labels.length) (b : Nat) :
    ∀ {l : List (OpEntry × Nat)} {ops : List Operation} {faults : List Fault} {complete : Bool},
      blockOps s b l = (ops, faults, complete) →
      if complete then Buildable s l.length ops else faults ≠ []
  | [], ops, faults, complete, h => by
    cases h
    exact ⟨rfl, by simp [Graph.Ends], by simp⟩
  | (e, i) :: rest, ops, faults, complete, h => by
    rw [blockOps] at h
    have htargets := yields_operation hs e #[]
    rcases hrun : (e.operation s).run #[] with ⟨op, noted⟩
    rw [hrun] at h htargets
    rcases hrest : blockOps s b rest with ⟨more, moreFaults, complete'⟩
    simp only [hrest] at h
    split at h
    · cases h
      simp
    · rename_i hend
      cases h
      have hmore := buildable_of_blockOps hs b hrest
      split
      · rename_i hcomplete
        rw [if_pos hcomplete] at hmore
        have hlength := hmore.length_eq
        refine ⟨by rw [List.length_cons, List.length_cons, hlength], fun k op' hk ↦ ?_,
          List.forall_mem_cons.mpr ⟨htargets, hmore.target_lt⟩⟩
        -- an operation is a terminator exactly if no entry is left behind it
        cases k with
        | zero =>
          cases hk
          rw [not_not.mp hend, List.isEmpty_iff, List.length_cons, hlength,
            ← List.length_eq_zero_iff]
          lia
        | succ k =>
          rw [hmore.ends k op' hk, List.length_cons]
          lia
      · rename_i hcomplete
        rw [if_neg hcomplete] at hmore
        simp [hmore]

private theorem tells_of_fillBlocks (hs : 0 < s.labels.length) : ∀ {l : List BlockEntry}
    {b : BlockIndex} {g : Graph} {faults : List Fault} {err : Error}, g.Awaiting b →
    b + l.length = g.blockCount → g.blockCount = s.labels.length →
    fillBlocks s (l.zipIdx b) g faults = .error err →
    (∃ l', err = .faults l' ∧ l' ≠ []) ∨
      (∃ k, err = .breach k) ∧ noHandle < g.opCount + (l.flatMap (·.ops)).length
  | [], b, g, [], err, _, _, _, h => by cases h
  | [], b, g, f :: faults, err, _, _, _, h => by
    cases h
    exact Or.inl ⟨_, rfl, by simp⟩
  | e :: l, b, g, faults, err, hg, hcount, hlabels, h => by
    rw [List.length_cons] at hcount
    rw [List.flatMap_cons, List.length_append]
    rw [List.zipIdx_cons, fillBlocks] at h
    split at h
    · refine (tells_of_fillBlocks hs hg.skip (by lia) hlabels h).imp_right ?_
      rintro ⟨hbreach, hlt⟩
      exact ⟨hbreach, by lia⟩
    · rename_i hne
      split at h
      · rename_i ops more hops
        have hmore := buildable_of_blockOps hs b hops
        cases h
        exact Or.inl ⟨_, rfl, by simpa using fun _ ↦ hmore⟩
      · rename_i ops more hops
        have hbuild := buildable_of_blockOps hs b hops
        rw [if_pos rfl, List.length_zipIdx] at hbuild
        have hbind := hg.exists_bind (b := b) (by lia)
        rw [hbind, ok_bind] at h
        cases hadd : Graph.addOperations { g with bound := some b } ops with
        | error k =>
          rw [hadd] at h
          cases h
          refine Or.inr ⟨⟨k, rfl⟩, ?_⟩
          by_contra hroom
          obtain ⟨g', hg'⟩ : ∃ g', Graph.addOperations { g with bound := some b } ops = .ok g' :=
            Graph.exists_addOperations rfl hbuild.ends
            (fun op hop t ht ↦ Nat.lt_of_lt_of_eq (hbuild.target_lt op hop t ht) hlabels.symm) (by
              rw [hbuild.length_eq]
              change g.opCount + e.ops.length ≤ noHandle
              lia)
          rw [hadd] at hg'
          cases hg'
        | ok g' =>
          rw [hadd] at h
          have hnil : ops ≠ [] := fun hnil ↦ by
            have hlength := hbuild.length_eq
            rw [hnil, List.length_nil, eq_comm, List.length_eq_zero_iff] at hlength
            simp [hlength] at hne
          obtain ⟨hg', hblocks, hopCount⟩ := hg.fill hbind hadd hnil hbuild.ends.getLast
          rw [hbuild.length_eq] at hopCount
          have hrest := tells_of_fillBlocks hs hg' (by lia) (hblocks.trans hlabels) h
          rwa [hopCount, Nat.add_assoc] at hrest

/-- The errors of a textual graph. -/
theorem tells_of_graph {e : GraphEntry} {err : Error} (h : e.graph = .error err) :
    err = .noBlocks ∨ (∃ l, err = .faults l ∧ l ≠ []) ∨
      (∃ k, err = .breach k) ∧
        (noHandle < e.blocks.length ∨ noHandle < (e.blocks.flatMap (·.ops)).length) := by
  rw [GraphEntry.graph] at h
  dsimp only at h
  split at h
  · cases h
    exact Or.inl rfl
  · rename_i hne
    have hpos : 0 < e.blocks.length := List.length_pos_iff.mpr (by simpa using hne)
    have hlabels : e.labels.length = e.blocks.length := by
      rw [GraphEntry.labels, List.length_map, List.length_zipIdx]
    generalize (normalName e.name).toUTF8 = name at h
    split at h
    · cases hadd : e.blocks.foldlM
          (fun g b ↦ Graph.addBlock g ((kindOf? b.kind).getD .entry) b.deferred)
          (Graph.empty name) with
      | error k =>
        rw [hadd] at h
        cases h
        refine Or.inr (Or.inr ⟨⟨k, rfl⟩, Or.inl ?_⟩)
        by_contra hroom
        rw [Graph.foldlM_addBlock
          (by simpa [Graph.empty, Graph.blockCount] using hroom)] at hadd
        cases hadd
      | ok g₀ =>
        rw [hadd] at h
        obtain ⟨hg₀, hblocks, hops⟩ := (Graph.awaiting_empty name).addBlocks
          (fun hadd ↦ ⟨_, _, hadd⟩) hadd
        have hcount : g₀.blockCount = e.blocks.length := hblocks.trans (Nat.zero_add _)
        have htells := tells_of_fillBlocks (s := ⟨e.labels, e.values⟩) (hlabels ▸ hpos) hg₀
          (by rw [hcount, Nat.zero_add]) (hcount.trans hlabels.symm) h
        refine Or.inr (htells.imp_right ?_)
        rintro ⟨hbreach, hlt⟩
        rw [hops] at hlt
        exact ⟨hbreach, Or.inr (Nat.lt_of_lt_of_eq hlt (Nat.zero_add _))⟩
    · rename_i faults hfaults
      cases h
      exact Or.inr (Or.inl ⟨_, rfl, hfaults⟩)

private theorem tells_of_ofBytes {bytes : ByteArray} {err : Error}
    (h : GraphEntry.ofBytes bytes = .error err) : err.Tells bytes := by
  rw [GraphEntry.ofBytes] at h
  split at h
  · cases h
    trivial
  · split at h
    · cases h
      trivial
    · split at h
      · cases h
      · rename_i keys hkeys
        cases h
        exact hkeys

private theorem decode_cases (bytes : ByteArray) :
    (∃ g, decode bytes = .ok g ∧ g.Orderly) ∨
      ∃ err, decode bytes = .error err ∧ err.Tells bytes := by
  rw [decode]
  cases hentry : GraphEntry.ofBytes bytes with
  | error err => exact Or.inr ⟨err, rfl, tells_of_ofBytes hentry⟩
  | ok e =>
    rw [ok_bind]
    cases hgraph : e.graph with
    | ok g => exact Or.inl ⟨g, rfl, (decoded_of_graph hgraph).1.orderly fun _ hop ↦ hop.1⟩
    | error err =>
      refine Or.inr ⟨err, rfl, ?_⟩
      rcases tells_of_graph hgraph with rfl | ⟨l, rfl, hl⟩ | ⟨⟨k, rfl⟩, hlarge⟩
      · trivial
      · exact hl
      · exact ⟨e, hentry, hlarge⟩

end Textual

/-! ## Binary files

A record is turned down with a reason of its own, or because the handles have come to an end. -/

namespace Binary

open Flowgraph.Graph (Awaiting)

def opTotal (l : List BlockRecord) : Nat := l.foldl (fun sum r ↦ sum + r.ops.items.length) 0

/-- What is wrong with a file is said. Building breaks off only at a file with more blocks or
operations than there are handles. -/
def Error.Tells (bytes : ByteArray) : Error → Prop
  | .breach _ => ∃ r, (MessagePack.ofBytes? bytes).bind GraphRecord.ofValue? = some r ∧
      (noHandle < r.blocks.items.length ∨ noHandle < opTotal r.blocks.items)
  | _ => True

private theorem opTotal_cons (r : BlockRecord) (l : List BlockRecord) :
    opTotal (r :: l) = r.ops.items.length + opTotal l := by
  have hshift : ∀ (l : List BlockRecord) (n : Nat),
      l.foldl (fun sum r ↦ sum + r.ops.items.length) n = n + opTotal l := by
    intro l
    induction l with
    | nil => exact fun n ↦ rfl
    | cons r l ih =>
      intro n
      have hcons : opTotal (r :: l) = r.ops.items.length + opTotal l := by
        rw [opTotal, List.foldl_cons, ih, Nat.zero_add]
      rw [List.foldl_cons, ih, hcons, Nat.add_assoc]
  rw [opTotal, List.foldl_cons, hshift, Nat.zero_add]

private theorem target_lt_of_operation {r : OpRecord} {blocks ops : Nat} {op : Operation}
    (h : r.operation blocks ops = .ok op) : ∀ t ∈ op.successors, t < blocks := by
  rw [OpRecord.operation] at h
  split at h
  · cases h
  · cases h
  · rename_i htargets
    have hlt : ∀ t ∈ r.targets, t < blocks := fun t ht ↦ by
      simpa using List.find?_eq_none.mp htargets t ht
    split at h
    · cases h
      simp [Operation.successors]
    · split at h
      · rename_i t hts
        cases h
        rw [hts] at hlt
        exact hlt
      · cases h
    · split at h
      · rename_i t f cond hts hcond
        split at h
        · cases h
        · cases h
          rw [hts] at hlt
          exact hlt
      · cases h
    · split at h
      · cases h
      · cases h
        simp [Operation.successors]
    · cases h
      simp [Operation.successors]
    · cases h
      simp [Operation.ret, Operation.successors]
    · cases h
      simp [Operation.dead, Operation.successors]
    · cases h

private theorem lt_of_addOps {m b count : Nat} : ∀ {l : List OpRecord} {k : Nat} {g : Graph}
    {e : Breach}, g.bound = some b → k + l.length = count →
    (l.zipIdx k).foldlM (addOp g.blockCount m b count) g = .error (.breach e) →
    noHandle < g.opCount + l.length
  | [], k, g, e, _, _, h => by cases h
  | r :: l, k, g, e, hb, hcount, h => by
    rw [List.length_cons] at hcount ⊢
    by_contra hroom
    rw [List.zipIdx_cons, List.foldlM_cons, addOp] at h
    cases hop : r.operation g.blockCount m with
    | error e' =>
      rw [hop] at h
      cases h
    | ok op =>
      rw [hop] at h
      change ((if op.isTerminator ≠ decide (k + 1 = count) then _ else _) >>= _) = _ at h
      split at h
      · cases h
      · rename_i hend
        rw [Graph.addOperation_of_bound hb (by lia) (target_lt_of_operation hop)] at h
        have hblocks : (g.appended b op).blockCount = g.blockCount := Graph.appended_blockCount
        cases l with
        | nil => cases h
        | cons r' l =>
          have hopen : op.isTerminator = false := by
            rw [not_not.mp hend, decide_eq_false_iff_not, ← hcount, List.length_cons]
            lia
          have hlt := lt_of_addOps (l := r' :: l) (k := k + 1) (g := g.appended b op) (e := e)
            (by rw [Graph.appended, if_neg (by simp [hopen])])
            (show k + 1 + (r' :: l).length = count by lia) (by rw [hblocks]; exact h)
          rw [Graph.appended_opCount] at hlt
          lia

private theorem lt_of_fillBlocks {m : Nat} : ∀ {l : List BlockRecord} {b : BlockIndex} {g : Graph}
    {e : Breach}, g.Awaiting b → b + l.length = g.blockCount →
    (l.zipIdx b).foldlM (fillBlock g.blockCount m) g = .error (.breach e) →
    noHandle < g.opCount + opTotal l
  | [], b, g, e, _, _, h => by cases h
  | r :: l, b, g, e, hg, hcount, h => by
    rw [List.length_cons] at hcount
    rw [opTotal_cons]
    rw [List.zipIdx_cons, List.foldlM_cons] at h
    cases hfill : fillBlock g.blockCount m g (r, b) with
    | error err =>
      rw [hfill] at h
      cases h
      -- the block that cannot be filled can be opened, so that it is its operations that do not fit
      rw [fillBlock] at hfill
      dsimp only at hfill
      split at hfill
      · cases hfill
      · rw [hg.exists_bind (b := b) (by lia)] at hfill
        have hlt := lt_of_addOps (g := { g with bound := some b }) rfl (Nat.zero_add _) hfill
        change noHandle < g.opCount + r.ops.items.length at hlt
        lia
    | ok g' =>
      rw [hfill] at h
      obtain ⟨ops, g₁, hnil, hlen, hbind, hadd, -, hend⟩ := exists_of_fillBlock hfill
      obtain ⟨hg', hblocks, hops⟩ := hg.fill hbind hadd hnil hend
      rw [← hblocks] at h
      have hlt := lt_of_fillBlocks hg' (by lia) h
      rw [hops, hlen] at hlt
      lia

private theorem lt_of_addBlocks : ∀ {l : List (BlockRecord × Nat)} {g : Graph} {e : Breach},
    l.foldlM addBlock g = .error (.breach e) → noHandle < g.blockCount + l.length
  | [], g, e, h => by cases h
  | r :: l, g, e, h => by
    rw [List.length_cons]
    by_contra hroom
    rw [List.foldlM_cons, addBlock] at h
    split at h
    · cases h
    · rw [Graph.addBlock, if_neg (by lia)] at h
      have hlt := lt_of_addBlocks (l := l) (e := e) h
      rw [Graph.blockCount, Array.size_push, ← Graph.blockCount] at hlt
      lia

private theorem addBlock_eq_ok {g g' : Graph} {r : BlockRecord × Nat} (h : addBlock g r = .ok g') :
    ∃ kind deferred, g.addBlock kind deferred = .ok g' := by
  rw [addBlock] at h
  split at h
  · cases h
  · exact ⟨_, _, mapError_eq_ok h⟩

private theorem lt_of_graph {r : GraphRecord} {e : Breach} (h : r.graph = .error (.breach e)) :
    noHandle < r.blocks.items.length ∨ noHandle < opTotal r.blocks.items := by
  rw [GraphRecord.graph] at h
  split at h
  · cases h
  · dsimp only at h
    split at h
    · cases h
    · cases hadd : r.blocks.items.zipIdx.foldlM addBlock (Graph.empty r.name) with
      | error err =>
        rw [hadd] at h
        cases h
        have hlt := lt_of_addBlocks hadd
        rw [List.length_zipIdx] at hlt
        exact Or.inl (Nat.lt_of_lt_of_eq hlt (Nat.zero_add _))
      | ok g₀ =>
        rw [hadd, ok_bind] at h
        obtain ⟨hg₀, hblocks, hops⟩ := (Graph.awaiting_empty r.name).addBlocks addBlock_eq_ok hadd
        rw [List.length_zipIdx] at hblocks
        have hcount : g₀.blockCount = r.blocks.items.length := hblocks.trans (Nat.zero_add _)
        rw [← hcount] at h
        have hlt := lt_of_fillBlocks hg₀ (by rw [hcount, Nat.zero_add]) h
        rw [hops] at hlt
        exact Or.inr (Nat.lt_of_lt_of_eq hlt (Nat.zero_add _))

private theorem decode_cases (bytes : ByteArray) :
    (∃ g, decode bytes = .ok g ∧ g.Orderly) ∨
      ∃ err, decode bytes = .error err ∧ err.Tells bytes := by
  rw [decode]
  cases hrecord : (MessagePack.ofBytes? bytes).bind GraphRecord.ofValue? with
  | none => exact Or.inr ⟨.notARecord, rfl, trivial⟩
  | some r =>
    simp only
    cases hgraph : r.graph with
    | ok g => exact Or.inl ⟨g, rfl, (decoded_of_graph hgraph).1.orderly fun _ hop ↦ hop⟩
    | error err =>
      refine Or.inr ⟨err, rfl, ?_⟩
      cases err with
      | breach k => exact ⟨r, hrecord, lt_of_graph hgraph⟩
      | _ => trivial

end Binary

/-! ## Files of both forms -/

/-- What is wrong with a file is said. -/
def GraphFileError.Tells (bytes : ByteArray) : GraphFileError → Prop
  | .textual e => e.Tells bytes
  | .binary e => e.Tells bytes

/-- Reading any bytes in either form gives an orderly graph, or else an error that says
something. -/
theorem GraphFormat.orderly_or_tells (f : GraphFormat) (bytes : ByteArray) :
    match f.decode bytes with
    | .ok g => g.Orderly
    | .error e => e.Tells bytes := by
  cases f with
  | text =>
    rw [decode]
    rcases Textual.decode_cases bytes with ⟨g, hg, horderly⟩ | ⟨err, herr, htells⟩
    · rw [hg]
      exact horderly
    · rw [herr]
      exact htells
  | binary =>
    rw [decode]
    rcases Binary.decode_cases bytes with ⟨g, hg, horderly⟩ | ⟨err, herr, htells⟩
    · rw [hg]
      exact horderly
    · rw [herr]
      exact htells

end Flowgraph
