import Flowgraph.GraphFile.Binary
import Flowgraph.Proofs.GraphFile.Names
import Flowgraph.Proofs.GraphFile.Storable

/-!
# Graphs read from files

A graph is read from a file block by block: a block is bound, takes its operations and is closed by
the last of them before the next one is bound. `Reading` is what holds between two blocks. Whatever
the file says, a graph that comes out is tidy, and its edges are in the order of its operations.

## Textual files

Reading a textual graph notes what is wrong and goes on. Nothing that was noted is ever taken back,
so that a graph comes out only if every single check passed. `Clean x P` states this for one check:
if nothing is noted by its end, nothing was noted before, and `P` holds of its result.
-/

namespace Flowgraph

/-! ## Filling block by block

What a reader keeps between two blocks: the blocks up to here are filled in order, and those behind
are there but empty. Adding the operations of one more block, the last one a terminator, goes on
with that. -/

/-- The first `b` blocks are filled with operations that have a property and take values below
`m`. -/
structure Reading (P : Operation → Prop) (m : Nat) (b : BlockIndex) (g : Graph) : Prop where
  filled : g.FilledBy (List.range b)
  bound_eq : g.bound = none
  kind : ∀ {c : BlockIndex} {blk : Block}, g.blocks[c]? = some blk → ∀ k, blk.kind ≠ .reserved k
  op : ∀ {i : OpIndex} {op : Operation}, g.ops[i]? = some op → P op ∧ ∀ j ∈ op.inputs, j < m

/-- What adding operations to the bound block does. -/
structure Added (g g' : Graph) (ops : List Operation) : Prop where
  name_eq : g'.name = g.name
  ops_eq : g'.ops.toList = g.ops.toList ++ ops
  kinds : ∀ b : BlockIndex, g'.blocks[b]?.map Block.kind = g.blocks[b]?.map Block.kind
  closed : ∀ op ∈ ops.getLast?, op.isTerminator = true → g'.bound = none

theorem added_of_addOperations : ∀ {ops : List Operation} {g g' : Graph},
    g.addOperations ops = .ok g' → Added g g' ops
  | [], g, g', h => by
    cases h
    exact ⟨rfl, by simp, fun _ ↦ rfl, nofun⟩
  | op :: ops, g, g', h => by
    rw [Graph.addOperations, List.foldlM_cons] at h
    obtain ⟨g₁, hadd, h⟩ := exists_of_bind_ok h
    obtain ⟨b, hb, -, -, rfl⟩ := Graph.addOperation_eq_ok hadd
    have hrest := added_of_addOperations h
    refine ⟨hrest.name_eq, ?_, fun c ↦ ?_, fun last hlast hend ↦ ?_⟩
    · rw [hrest.ops_eq, Graph.appended, Array.toList_push, List.append_assoc]
      rfl
    · rw [hrest.kinds, Graph.appended, Array.getElem?_modify]
      split
      · rw [Option.map_map]
        rfl
      · rfl
    -- only the last operation tells whether the block is closed
    · cases ops with
      | nil =>
        have : op = last := by simpa using hlast
        cases h
        simp [Graph.appended, this, hend]
      | cons op' ops =>
        rw [List.getLast?_cons_cons] at hlast
        exact hrest.closed last hlast hend

theorem Added.blockCount_eq {g g' : Graph} {ops : List Operation} (h : Added g g' ops) :
    g'.blockCount = g.blockCount := by
  have hlt : ∀ b : Nat, b < g'.blockCount ↔ b < g.blockCount := by
    intro b
    have := congrArg Option.isSome (h.kinds b)
    rw [Option.isSome_map, Option.isSome_map, Bool.eq_iff_iff, isSome_getElem?,
      isSome_getElem?] at this
    exact this
  have h₁ := (hlt g.blockCount).mp
  have h₂ := (hlt g'.blockCount).mpr
  omega

namespace Reading

variable {P : Operation → Prop} {m : Nat} {b : BlockIndex} {g g' : Graph}

theorem empty (P : Operation → Prop) (m : Nat) (name : ByteArray) : Reading P m 0 (.empty name) :=
  ⟨Graph.filledBy_empty name, rfl, nofun, nofun⟩

theorem addBlock (h : Reading P m 0 g) {kind : BlockKind} {deferred : Bool}
    (hkind : ∀ k, kind ≠ .reserved k) (hadd : g.addBlock kind deferred = .ok g') :
    Reading P m 0 g' ∧ g'.name = g.name ∧ g'.blockCount = g.blockCount + 1 ∧
      g'.opCount = g.opCount := by
  have hfilled := h.filled.addBlock hadd
  obtain ⟨-, rfl⟩ := Graph.addBlock_eq_ok hadd
  refine ⟨⟨hfilled, h.bound_eq, fun {c blk} hblk ↦ ?_, h.op⟩, rfl, by simp [Graph.blockCount], rfl⟩
  rw [Array.getElem?_push] at hblk
  split at hblk
  · cases hblk
    exact hkind
  · exact h.kind hblk

/-- Filling the next block. -/
theorem fill (h : Reading P m b g) {g₁ : Graph} (hbind : g.bind b = .ok g₁)
    {ops : List Operation} (hadd : g₁.addOperations ops = .ok g') (hne : ops ≠ [])
    (hops : ∀ op ∈ ops, P op ∧ ∀ j ∈ op.inputs, j < m)
    (hend : ∀ op ∈ ops.getLast?, op.isTerminator = true) :
    Reading P m (b + 1) g' ∧ g'.name = g.name ∧ g'.blockCount = g.blockCount ∧
      g'.opCount = g.opCount + ops.length := by
  have hfilled := (h.filled.bind hbind).addOperations hadd
  have hadded := added_of_addOperations hadd
  obtain ⟨-, -, rfl⟩ := Graph.bind_eq_ok hbind
  have hlast := List.getLast?_eq_some_getLast hne
  refine ⟨{
    filled := by
      rw [List.range_succ]
      exact hfilled
    bound_eq := hadded.closed _ hlast (hend _ hlast)
    kind := fun {c blk'} hblk' ↦ by
      have hkind := hadded.kinds c
      rw [hblk', Option.map_some, eq_comm, Option.map_eq_some_iff] at hkind
      obtain ⟨blk, hblk, heq⟩ := hkind
      rw [← heq]
      exact h.kind hblk
    op := fun {i op} hop ↦ by
      rw [← Array.getElem?_toList, hadded.ops_eq, List.getElem?_append] at hop
      split at hop
      · rw [Array.getElem?_toList] at hop
        exact h.op hop
      · exact hops op (List.mem_of_getElem? hop) }, hadded.name_eq, hadded.blockCount_eq, ?_⟩
  have hlen := congrArg List.length hadded.ops_eq
  simpa [Graph.opCount] using hlen

private theorem tidy (h : Reading P g.opCount g.blockCount g) (hpos : 0 < g.blockCount) :
    g.Tidy P where
  sound := h.filled.sound
  bound_eq := h.bound_eq
  laid := h.filled.laid h.bound_eq
  pos := hpos
  values hop := (h.op hop).2
  kind := h.kind
  op hop := (h.op hop).1

end Reading

/-- What is known of a graph that was read from a file. -/
structure Decoded (P : Operation → Prop) (g : Graph) : Prop where
  tidy : g.Tidy P
  edges_eq : g.edges.toList = g.recordedEdges

theorem Reading.decoded {P : Operation → Prop} {g : Graph}
    (h : Reading P g.opCount g.blockCount g) (hpos : 0 < g.blockCount) : Decoded P g :=
  ⟨h.tidy hpos, h.filled.edges_eq⟩

namespace Textual

open Checking

/-! ## Checks that note nothing

A check has a result and a list of what it notes. Sequences of checks note nothing if none of the
parts does, and the results of the parts then are what their checks say. -/

section Clean

variable {α β : Type}

/-- If nothing is noted by the end of a check, nothing was noted before, and `P` holds of the
result. -/
def Clean (x : Checking α) (P : α → Prop) : Prop :=
  ∀ faults, (x.run faults).2 = #[] → faults = #[] ∧ P (x.run faults).1

theorem Clean.mono {x : Checking α} {P Q : α → Prop} (h : Clean x P) (hPQ : ∀ a, P a → Q a) :
    Clean x Q := fun faults hend ↦ ⟨(h faults hend).1, hPQ _ (h faults hend).2⟩

theorem clean_pure (a : α) : Clean (pure a) (· = a) := fun _ hend ↦ ⟨hend, rfl⟩

theorem Clean.bind {x : Checking α} {f : α → Checking β} {Q : α → Prop} {P : α → β → Prop}
    (hx : Clean x Q) (hf : ∀ a, Clean (f a) (P a)) :
    Clean (x >>= f) fun b ↦ ∃ a, Q a ∧ P a b := by
  intro faults hend
  have hrun : (x >>= f).run faults = (f (x.run faults).1).run (x.run faults).2 := rfl
  rw [hrun] at hend ⊢
  obtain ⟨hmid, hP⟩ := hf _ _ hend
  obtain ⟨hstart, hQ⟩ := hx _ hmid
  exact ⟨hstart, _, hQ, hP⟩

/-- A check that notes a fault is not clean, whatever it goes on with. -/
theorem clean_note (f : OpFault) (a : α) (P : α → Prop) : Clean (note f >>= fun _ ↦ pure a) P := by
  intro faults hend
  have hpush : faults.push f = #[] := hend
  exact absurd hpush (by simp)

theorem clean_orNote (found : Option α) (standIn : α) (f : OpFault) :
    Clean (orNote found standIn f) (found = some ·) := by
  cases found with
  | none => exact clean_note f standIn _
  | some a => exact (clean_pure a).mono fun _ ↦ fun heq ↦ congrArg some heq.symm

private theorem clean_mapM {f : α → Checking β} {P : β → Prop} (hf : ∀ a, Clean (f a) P) :
    ∀ l : List α, Clean (l.mapM f) fun bs ↦ ∀ b ∈ bs, P b
  | [] => by
    rw [List.mapM_nil]
    exact (clean_pure _).mono fun bs hbs ↦ by rw [hbs]; nofun
  | a :: l => by
    rw [List.mapM_cons]
    refine ((hf a).bind fun b ↦ (clean_mapM hf l).bind fun bs ↦ clean_pure (b :: bs)).mono ?_
    rintro _ ⟨b, hb, bs, hbs, rfl⟩
    exact List.forall_mem_cons.mpr ⟨hb, hbs⟩

end Clean

/-! ## Operations

What an entry has to say for its operation to be accepted. The word decides which of the other
fields are looked at. -/

/-- What a check of an operation makes sure of. -/
def Accepted (s : Scope) (op : Operation) : Prop :=
  op.Storable ∧ ∀ i ∈ op.inputs, i < s.values.length

private theorem clean_value (s : Scope) (name : String) :
    Clean (s.value name) (· < s.values.length) := by
  refine (clean_orNote _ _ _).mono fun i hi ↦ ?_
  obtain ⟨hlt, -⟩ := List.idxOf?_eq_some_iff.mp hi
  exact hlt

/-- A word list gives nothing but what it lists. -/
theorem mem_of_lookup {γ : Type} {l : List (String × γ)} {k : String} {c : γ}
    (h : l.lookup k = some c) : c ∈ l.map Prod.snd := by
  obtain ⟨l₁, l₂, rfl, -⟩ := List.lookup_eq_some_iff.mp h
  simp

private theorem hint_known {name : String} {hint : Hint} (h : hintOf? name = some hint) :
    ∀ c, hint ≠ .reserved c := by
  have hmem := mem_of_lookup h
  rintro c rfl
  simp at hmem

private theorem representation_known {name : String} {rep : Representation}
    (h : representationOf? name = some rep) : ∀ c, rep ≠ .reserved c := by
  have hmem := mem_of_lookup h
  rintro c rfl
  simp at hmem

private theorem kind_known {name : String} {kind : BlockKind} (h : kindOf? name = some kind) :
    ∀ c, kind ≠ .reserved c := by
  have hmem := mem_of_lookup h
  rintro c rfl
  simp at hmem

private theorem clean_branch (e : OpEntry) (s : Scope) {args : List OpIndex} :
    Clean (e.branch s args) fun op ↦ op.Storable ∧ op.inputs = args := by
  rw [OpEntry.branch.eq_def]
  split
  · rename_i cond
    refine ((clean_orNote _ _ _).bind fun hint ↦ (clean_orNote _ _ _).bind fun t ↦
      (clean_orNote _ _ _).bind fun f ↦ clean_pure (Operation.branch cond t f hint)).mono ?_
    rintro _ ⟨hint, hhint, t, -, f, -, rfl⟩
    exact ⟨⟨⟨⟨cond, rfl⟩, hint_known hhint⟩, trivial⟩, rfl⟩
  · exact clean_note _ _ _

private theorem clean_operation (e : OpEntry) (s : Scope) : Clean (e.operation s) (Accepted s) := by
  rw [OpEntry.operation]
  split
  · exact clean_note _ _ _
  · rename_i hne
    refine ((clean_mapM (clean_value s) e.args).bind (P := fun args op ↦ op.Storable ∧
      (op.inputs = args ∨ op.inputs = [])) fun args ↦ ?_).mono ?_
    · split
      · refine ((clean_orNote _ _ _).bind fun t ↦ clean_pure (Operation.goto t)).mono ?_
        rintro _ ⟨t, -, rfl⟩
        exact ⟨⟨rfl, trivial⟩, Or.inr rfl⟩
      · exact (clean_branch e s).mono fun op hop ↦ ⟨hop.1, Or.inl hop.2⟩
      · refine ((clean_orNote _ _ _).bind fun rep ↦
          clean_pure (Operation.mk (.phi rep) args)).mono ?_
        rintro _ ⟨rep, hrep, rfl⟩
        exact ⟨⟨representation_known hrep, trivial⟩, Or.inl rfl⟩
      · split
        · exact clean_note _ _ _
        · rename_i hcallee
          refine (clean_pure _).mono ?_
          rintro _ rfl
          refine ⟨⟨trivial, e.callee, rfl, fun h ↦ hcallee ?_⟩, Or.inl rfl⟩
          rw [h]
          rfl
      · refine (clean_pure _).mono ?_
        rintro _ rfl
        exact ⟨⟨trivial, trivial⟩, Or.inl rfl⟩
      · refine (clean_pure _).mono ?_
        rintro _ rfl
        exact ⟨⟨rfl, trivial⟩, Or.inr rfl⟩
      · refine (clean_pure _).mono ?_
        rintro _ rfl
        refine ⟨⟨trivial, Text.trim e.name, rfl, fun h ↦ hne ?_, Text.trim_trim _, ?_⟩, Or.inl rfl⟩
        · rw [h]
          rfl
        · simp_all [keywords]
    · rintro op ⟨args, hargs, hstorable, hinputs | hinputs⟩
      · exact ⟨hstorable, by rw [hinputs]; exact hargs⟩
      · exact ⟨hstorable, by rw [hinputs]; nofun⟩

/-! ## Blocks

The operations of a block come out complete if each of them does and only the last one is a
terminator. -/

/-- The operations of a block that is read without a fault. -/
structure BlockRead (s : Scope) (count : Nat) (ops : List Operation) : Prop where
  length_eq : ops.length = count
  accepted : ∀ op ∈ ops, Accepted s op
  ends : ∀ op ∈ ops.getLast?, op.isTerminator = true

/-- The operations of a block come out complete and without a fault iff the first one does, it is
not a terminator unless it is the only one, and the others do. -/
theorem blockOps_cons {s : Scope} {b i : Nat} {e : OpEntry} {rest : List (OpEntry × Nat)}
    {ops : List Operation} : blockOps s b ((e, i) :: rest) = (ops, [], true) ↔
      ∃ op more, (e.operation s).run #[] = (op, #[]) ∧ op.isTerminator = rest.isEmpty ∧
        blockOps s b rest = (more, [], true) ∧ ops = op :: more := by
  rw [blockOps]
  rcases hrun : (e.operation s).run #[] with ⟨op, faults⟩
  rcases hrest : blockOps s b rest with ⟨more, moreFaults, complete⟩
  simp only
  constructor
  · intro h
    split at h
    · simp at h
    · rename_i hend
      obtain ⟨rfl, hfaults, rfl⟩ : op :: more = ops ∧
          faults.toList.map (Fault.op b i) ++ moreFaults = [] ∧ complete = true := by
        simpa using h
      obtain ⟨hfaults, rfl⟩ := List.append_eq_nil_iff.mp hfaults
      obtain rfl : faults = #[] := by simpa using hfaults
      exact ⟨op, more, rfl, not_not.mp hend, rfl, rfl⟩
  · rintro ⟨op', more', hop, hend, hmore, rfl⟩
    cases hop
    cases hmore
    rw [if_neg (not_not.mpr hend)]
    rfl

private theorem blockRead_of_blockOps {s : Scope} {b : Nat} : ∀ {l : List (OpEntry × Nat)}
    {ops : List Operation}, blockOps s b l = (ops, [], true) → BlockRead s l.length ops
  | [], ops, h => by
    cases h
    exact ⟨rfl, nofun, nofun⟩
  | (e, i) :: rest, ops, h => by
    obtain ⟨op, more, hrun, hend, hrest, rfl⟩ := blockOps_cons.mp h
    have hread := blockRead_of_blockOps hrest
    have hop := clean_operation e s #[]
    rw [hrun] at hop
    refine ⟨by rw [List.length_cons, List.length_cons, hread.length_eq],
      List.forall_mem_cons.mpr ⟨(hop rfl).2, hread.accepted⟩, ?_⟩
    intro last hlast
    cases more with
    | nil =>
      have hnil : rest = [] := List.length_eq_zero_iff.mp hread.length_eq.symm
      have hop : op = last := by simpa using hlast
      rw [← hop, hend, hnil]
      rfl
    | cons op' more =>
      rw [List.getLast?_cons_cons] at hlast
      exact hread.ends last hlast

/-! ## Graphs

A graph comes out only if no block has noted anything, and then every block has been filled. -/

private theorem faults_eq_nil_of_fillBlocks {s : Scope} : ∀ {l : List (BlockEntry × Nat)}
    {g g' : Graph} {faults : List Fault}, fillBlocks s l g faults = .ok g' → faults = []
  | [], g, g', [], _ => rfl
  | [], g, g', f :: faults, h => by cases h
  | (e, b) :: l, g, g', faults, h => by
    rw [fillBlocks] at h
    split at h
    · exact (List.append_eq_nil_iff.mp (faults_eq_nil_of_fillBlocks h)).1
    · split at h
      · cases h
      · obtain ⟨g₁, -, h⟩ := exists_of_bind_ok h
        exact (List.append_eq_nil_iff.mp (faults_eq_nil_of_fillBlocks h)).1

/-- The first of some blocks that are filled: it has operations, which all come out, and takes them
between being bound and the next block. -/
theorem exists_of_fillBlocks_cons {s : Scope} {e : BlockEntry} {b : BlockIndex}
    {l : List (BlockEntry × Nat)} {g g' : Graph} {faults : List Fault}
    (h : fillBlocks s ((e, b) :: l) g faults = .ok g') :
    ∃ ops g₁ g₂, e.ops ≠ [] ∧ blockOps s b e.ops.zipIdx = (ops, [], true) ∧ g.bind b = .ok g₁ ∧
      g₁.addOperations ops = .ok g₂ ∧ fillBlocks s l g₂ [] = .ok g' := by
  rw [fillBlocks] at h
  split at h
  · exact absurd (faults_eq_nil_of_fillBlocks h) (by simp)
  · rename_i hne
    split at h
    · cases h
    · rename_i ops more hops
      obtain ⟨g₂, hfill, h⟩ := exists_of_bind_ok h
      obtain ⟨g₁, hbind, hadd⟩ := exists_of_bind_ok (mapError_eq_ok hfill)
      obtain ⟨rfl, rfl⟩ := List.append_eq_nil_iff.mp (faults_eq_nil_of_fillBlocks h)
      exact ⟨ops, g₁, g₂, by simpa using hne, hops, hbind, hadd, h⟩

private theorem reading_of_fillBlocks {s : Scope} : ∀ {l : List BlockEntry} {b : BlockIndex}
    {g g' : Graph} {faults : List Fault},
    Reading Operation.Storable s.values.length b g →
    fillBlocks s (l.zipIdx b) g faults = .ok g' →
    Reading Operation.Storable s.values.length (b + l.length) g' ∧ g'.name = g.name ∧
      g'.blockCount = g.blockCount ∧ g'.opCount = g.opCount + (l.flatMap (·.ops)).length
  | [], b, g, g', [], hg, h => by
    cases h
    exact ⟨hg, rfl, rfl, rfl⟩
  | [], b, g, g', f :: faults, hg, h => by cases h
  | e :: l, b, g, g', faults, hg, h => by
    rw [List.zipIdx_cons] at h
    obtain ⟨ops, g₁, g₂, hne, hops, hbind, hadd, h⟩ := exists_of_fillBlocks_cons h
    have hread := blockRead_of_blockOps hops
    rw [List.length_zipIdx] at hread
    have hnil : ops ≠ [] := by
      rwa [← List.length_pos_iff, hread.length_eq, List.length_pos_iff]
    obtain ⟨hg₂, hname, hblocks, hcount⟩ := hg.fill hbind hadd hnil hread.accepted hread.ends
    obtain ⟨hg', hname', hblocks', hcount'⟩ := reading_of_fillBlocks hg₂ h
    rw [List.length_cons, ← Nat.add_assoc, Nat.add_right_comm]
    refine ⟨hg', hname'.trans hname, hblocks'.trans hblocks, ?_⟩
    rw [hcount', hcount, hread.length_eq, List.flatMap_cons, List.length_append, Nat.add_assoc]

private theorem reading_of_addBlocks {P : Operation → Prop} {m : Nat} {l : List BlockEntry}
    (hkinds : ∀ e ∈ l, ∃ k, kindOf? e.kind = some k) : ∀ {g g' : Graph}, Reading P m 0 g →
    l.foldlM (fun g b ↦ Graph.addBlock g ((kindOf? b.kind).getD .entry) b.deferred) g = .ok g' →
    Reading P m 0 g' ∧ g'.name = g.name ∧ g'.blockCount = g.blockCount + l.length ∧
      g'.opCount = g.opCount := by
  induction l with
  | nil =>
    intro g g' hg h
    cases h
    exact ⟨hg, rfl, rfl, rfl⟩
  | cons e l ih =>
    intro g g' hg h
    rw [List.forall_mem_cons] at hkinds
    rw [List.foldlM_cons] at h
    obtain ⟨g₁, hadd, h⟩ := exists_of_bind_ok h
    obtain ⟨kind, hkind⟩ := hkinds.1
    rw [hkind, Option.getD_some] at hadd
    obtain ⟨hg₁, hname, hblocks, hcount⟩ := hg.addBlock (kind_known hkind) hadd
    obtain ⟨hg', hname', hblocks', hcount'⟩ := ih hkinds.2 hg₁ h
    refine ⟨hg', hname'.trans hname, ?_, hcount'.trans hcount⟩
    rw [hblocks', hblocks, List.length_cons, Nat.add_assoc, Nat.add_comm 1]

/-- A graph that was read from a textual file. -/
theorem decoded_of_graph {e : GraphEntry} {g : Graph} (h : e.graph = .ok g) :
    Decoded Operation.Storable g ∧ g.name = (normalName e.name).toUTF8 := by
  obtain ⟨hne, -, hkinds, g₀, hadd, hfill⟩ := graph_eq_ok_iff.mp h
  generalize (normalName e.name).toUTF8 = name at hadd ⊢
  obtain ⟨hg₀, hname, hcount, hops⟩ := reading_of_addBlocks hkinds
    (Reading.empty Operation.Storable e.values.length name) hadd
  obtain ⟨hg, hname', hcount', hops'⟩ := reading_of_fillBlocks hg₀ hfill
  have htotal : e.values.length = g.opCount := by
    rw [hops', hops, GraphEntry.values, List.length_map, List.length_zipIdx]
    exact (Nat.zero_add _).symm
  have hlen : 0 + e.blocks.length = g.blockCount := by
    rw [hcount', hcount]
    rfl
  rw [hlen, htotal] at hg
  refine ⟨hg.decoded ?_, hname'.trans hname⟩
  rw [← hlen, Nat.zero_add]
  exact List.length_pos_iff.mpr hne

end Textual

/-! ## Binary files

The reader of records stops at the first fault, so that a success of the whole is a success of every
part. -/

namespace Binary

private theorem hint_of_code {c : UInt8} (h : ¬2 < c) : ∀ k, Hint.ofCode c ≠ .reserved k := by
  intro k
  rw [Hint.ofCode, dif_neg h]
  split_ifs <;> nofun

private theorem representation_of_code {c : UInt8} (h : ¬4 < c) :
    ∀ k, Representation.ofCode c ≠ .reserved k := by
  intro k
  rw [Representation.ofCode, dif_neg h]
  split_ifs <;> nofun

private theorem kind_of_code {c : UInt8} (h : ¬3 < c) : ∀ k, BlockKind.ofCode c ≠ .reserved k := by
  intro k
  rw [BlockKind.ofCode, dif_neg h]
  split_ifs <;> nofun

private theorem recordable_of_operation {r : OpRecord} {blocks ops : Nat} {op : Operation}
    (h : r.operation blocks ops = .ok op) : op.Recordable ∧ ∀ j ∈ op.inputs, j < ops := by
  rw [OpRecord.operation] at h
  split at h
  · cases h
  · cases h
  · rename_i hinputs htargets
    have hlt : ∀ j ∈ r.inputs, j < ops := fun j hj ↦ by
      simpa using List.find?_eq_none.mp hinputs j hj
    split at h
    · cases h
      exact ⟨trivial, hlt⟩
    · split at h
      · cases h
        exact ⟨rfl, nofun⟩
      · cases h
    · split at h
      · rename_i t f cond htargets hcond
        split at h
        · cases h
        · rename_i hattr
          cases h
          rw [hcond] at hlt
          exact ⟨⟨⟨cond, rfl⟩, hint_of_code hattr⟩, hlt⟩
      · cases h
    · split at h
      · cases h
      · rename_i hattr
        cases h
        exact ⟨representation_of_code hattr, hlt⟩
    · cases h
      exact ⟨trivial, hlt⟩
    · cases h
      exact ⟨trivial, hlt⟩
    · cases h
      exact ⟨rfl, nofun⟩
    · cases h

private theorem addOperations_of_addOps {blocks m b count : Nat} : ∀ {l : List OpRecord} {k : Nat}
    {g g' : Graph}, (l.zipIdx k).foldlM (addOp blocks m b count) g = .ok g' →
    ∃ ops : List Operation, ops.length = l.length ∧ g.addOperations ops = .ok g' ∧
      (∀ op ∈ ops, op.Recordable ∧ ∀ j ∈ op.inputs, j < m) ∧
      ∀ {i : Nat} {op : Operation}, ops[i]? = some op →
        op.isTerminator = decide (k + i + 1 = count)
  | [], k, g, g', h => by
    cases h
    exact ⟨[], rfl, rfl, nofun, nofun⟩
  | r :: l, k, g, g', h => by
    rw [List.zipIdx_cons, List.foldlM_cons] at h
    obtain ⟨g₁, hadd, h⟩ := exists_of_bind_ok h
    obtain ⟨op, hop, hadd⟩ := exists_of_bind_ok hadd
    split at hadd
    · cases hadd
    · rename_i hend
      obtain ⟨ops, hlen, hops, hgood, hends⟩ := addOperations_of_addOps h
      refine ⟨op :: ops, by rw [List.length_cons, List.length_cons, hlen], ?_,
        List.forall_mem_cons.mpr ⟨recordable_of_operation (mapError_eq_ok hop), hgood⟩, ?_⟩
      · rw [Graph.addOperations, List.foldlM_cons, mapError_eq_ok hadd]
        exact hops
      · intro i op' hi
        cases i with
        | zero =>
          cases hi
          simpa using hend
        | succ i =>
          rw [hends hi, Nat.add_right_comm k 1 i, Nat.add_assoc k i 1]

/-- A block that is filled has operations, which all come out, and takes them after being bound. The
last one is a terminator. -/
theorem exists_of_fillBlock {blocks m : Nat} {b : BlockIndex} {g g' : Graph} {r : BlockRecord}
    (h : fillBlock blocks m g (r, b) = .ok g') :
    ∃ ops g₁, ops ≠ [] ∧ ops.length = r.ops.items.length ∧ g.bind b = .ok g₁ ∧
      g₁.addOperations ops = .ok g' ∧ (∀ op ∈ ops, op.Recordable ∧ ∀ j ∈ op.inputs, j < m) ∧
      ∀ op ∈ ops.getLast?, op.isTerminator = true := by
  rw [fillBlock] at h
  dsimp only at h
  split at h
  · cases h
  · rename_i hne
    obtain ⟨g₁, hbind, h⟩ := exists_of_bind_ok h
    obtain ⟨ops, hlen, hadd, hgood, hends⟩ := addOperations_of_addOps h
    have hpos : 0 < ops.length := by
      rw [hlen, List.length_pos_iff]
      simpa using hne
    refine ⟨ops, g₁, List.length_pos_iff.mp hpos, hlen, mapError_eq_ok hbind, hadd, hgood,
      fun op hop ↦ ?_⟩
    rw [List.getLast?_eq_getElem?] at hop
    rw [hends hop, ← hlen, decide_eq_true_iff]
    omega

private theorem reading_of_fillBlocks {blocks m : Nat} : ∀ {l : List BlockRecord} {b : BlockIndex}
    {g g' : Graph}, Reading Operation.Recordable m b g →
    (l.zipIdx b).foldlM (fillBlock blocks m) g = .ok g' →
    Reading Operation.Recordable m (b + l.length) g' ∧ g'.name = g.name ∧
      g'.blockCount = g.blockCount ∧
      g'.opCount = l.foldl (fun sum r ↦ sum + r.ops.items.length) g.opCount
  | [], b, g, g', hg, h => by
    cases h
    exact ⟨hg, rfl, rfl, rfl⟩
  | r :: l, b, g, g', hg, h => by
    rw [List.zipIdx_cons, List.foldlM_cons] at h
    obtain ⟨g₂, hfill, h⟩ := exists_of_bind_ok h
    obtain ⟨ops, g₁, hnil, hlen, hbind, hadd, hgood, hend⟩ := exists_of_fillBlock hfill
    obtain ⟨hg₂, hname, hblocks, hcount⟩ := hg.fill hbind hadd hnil hgood hend
    obtain ⟨hg', hname', hblocks', hcount'⟩ := reading_of_fillBlocks hg₂ h
    rw [List.length_cons, ← Nat.add_assoc, Nat.add_right_comm]
    refine ⟨hg', hname'.trans hname, hblocks'.trans hblocks, ?_⟩
    rw [hcount', hcount, hlen, List.foldl_cons]

private theorem reading_of_addBlocks {P : Operation → Prop} {m : Nat} :
    ∀ {l : List (BlockRecord × Nat)}
    {g g' : Graph}, Reading P m 0 g → l.foldlM addBlock g = .ok g' →
    Reading P m 0 g' ∧ g'.name = g.name ∧ g'.blockCount = g.blockCount + l.length ∧
      g'.opCount = g.opCount
  | [], g, g', hg, h => by
    cases h
    exact ⟨hg, rfl, rfl, rfl⟩
  | r :: l, g, g', hg, h => by
    rw [List.foldlM_cons] at h
    obtain ⟨g₁, hadd, h⟩ := exists_of_bind_ok h
    rw [addBlock] at hadd
    split at hadd
    · cases hadd
    · rename_i hkind
      obtain ⟨hg₁, hname, hblocks, hcount⟩ :=
        hg.addBlock (kind_of_code hkind) (mapError_eq_ok hadd)
      obtain ⟨hg', hname', hblocks', hcount'⟩ := reading_of_addBlocks hg₁ h
      refine ⟨hg', hname'.trans hname, ?_, hcount'.trans hcount⟩
      rw [hblocks', hblocks, List.length_cons, Nat.add_assoc, Nat.add_comm 1]

/-- A graph that was read from a binary file. -/
theorem decoded_of_graph {r : GraphRecord} {g : Graph} (h : r.graph = .ok g) :
    Decoded Operation.Recordable g ∧ g.name = r.name := by
  rw [GraphRecord.graph] at h
  split at h
  · cases h
  · dsimp only at h
    split at h
    · cases h
    · rename_i hne
      obtain ⟨g₀, hblocks, h⟩ := exists_of_bind_ok h
      obtain ⟨hg₀, hname, hcount, hops⟩ := reading_of_addBlocks
        (Reading.empty Operation.Recordable _ r.name) hblocks
      obtain ⟨hg, hname', hcount', hops'⟩ := reading_of_fillBlocks hg₀ h
      rw [List.length_zipIdx] at hcount
      have hlen : 0 + r.blocks.items.length = g.blockCount := by
        rw [hcount', hcount]
        rfl
      have htotal : r.blocks.items.foldl (fun sum b ↦ sum + b.ops.items.length) 0 = g.opCount := by
        rw [hops', hops]
        rfl
      rw [hlen, htotal] at hg
      refine ⟨hg.decoded ?_, hname'.trans hname⟩
      rw [← hlen, Nat.zero_add]
      exact List.length_pos_iff.mpr (by simpa using hne)

end Binary

end Flowgraph
