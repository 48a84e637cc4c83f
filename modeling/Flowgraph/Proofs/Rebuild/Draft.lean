import Flowgraph.Proofs.Graph.Restoring
import Flowgraph.Proofs.Rebuild.Survivors

/-!
# Rebuilding comes to its end

A verified graph whose values are defined before they are used is rebuilt without a breach, whether
phis are forwarded or not. `Draft` is what holds of the copy at any time between two operations; it
says which blocks have copies, which of them are filled, and how they are joined. Each step of
rebuilding is shown to succeed on a draft and to make a draft of it again.

## Why nothing goes wrong

A live operation stands in a block that survives, and a block that survives has its copy before
control gets to it, since some block in front of it leads there. So every value that is needed is
there when it is needed, and a loop phi, which may have to wait, finds it at the end.

## Phis

The predecessors of a copied block with a live phi copy predecessors of its source, each edge at
most as often. Nothing else can lead there, because rewritten jumps go to blocks without live phis.
A merge has all of its predecessors when it is copied.
-/

namespace Flowgraph

/-- Every value is defined before it is used, in an earlier block or earlier in the same block. The
inputs of loop phis are left out. -/
def Graph.DefinedFirst (g : Graph) : Prop :=
  ∀ i < g.opCount, ∀ op ∈ g.ops[i]?, ∀ b ∈ g.owners[i]?, ∀ blk ∈ g.blocks[b]?,
    (op.isPhi && blk.isLoop) = false →
    ∀ j ∈ op.inputs, ∀ d ∈ g.owners[j]?, d < b ∨ d = b ∧ j < i

instance (g : Graph) : Decidable g.DefinedFirst :=
  inferInstanceAs (Decidable (∀ i < g.opCount, ∀ op ∈ g.ops[i]?, ∀ b ∈ g.owners[i]?,
    ∀ blk ∈ g.blocks[b]?, (op.isPhi && blk.isLoop) = false →
      ∀ j ∈ op.inputs, ∀ d ∈ g.owners[j]?, d < b ∨ d = b ∧ j < i))

namespace Liveness

/-- What a live operation uses is defined before it, in an earlier block or earlier in the same
block. Rewritten jumps and loop phis are left out. -/
def Ready (g : Graph) (s : Liveness) : Prop :=
  ∀ {i : OpIndex} {op : Operation} {b : BlockIndex} {blk : Block}, i ∈ (g.span b).toList →
    g.ops[i]? = some op → g.blocks[b]? = some blk → s.rewrite? i op = none → s.isLive i = true →
    (op.isPhi && blk.isLoop) = false →
    ∀ j ∈ op.inputs, ∀ d, j ∈ (g.span d).toList → d < b ∨ d = b ∧ j < i

theorem ready_of_definedFirst {g : Graph} (hg : g.Sound) (h : g.DefinedFirst) (s : Liveness) :
    Ready g s :=
  fun {i op b blk} hi hop hblk _ _ hphi j hj d hd ↦ h i (Graph.lt_opCount hop) op hop b
    ((hg.mem_span_iff i b).mp hi) blk hblk hphi j hj d ((hg.mem_span_iff j d).mp hd)

def HasLivePhi (g : Graph) (s : Liveness) (b : BlockIndex) : Prop :=
  ∃ i op, i ∈ (g.span b).toList ∧ g.ops[i]? = some op ∧ op.isPhi = true ∧ s.isLive i = true

private theorem HasLivePhi.not_outlet {g : Graph} {s : Liveness} {b : BlockIndex}
    (h : HasLivePhi g s b) : ¬Outlet g s.isLive b := by
  obtain ⟨i, op, hi, hop, hphi, hlive⟩ := h
  intro hout
  have hdead := hout.phis i hi
  simp [hop, hphi, hlive] at hdead

end Liveness

open Liveness (Survives exits HasLivePhi)

variable {g : Graph} {s : Liveness} {n : BlockIndex} {a a' : Assembler}

/-- The assembler that begins to fill the copy `c` of block `b`. -/
def Assembler.begun (a : Assembler) (b c : BlockIndex) : Assembler :=
  { a with
    output := { a.output with bound := some c }
    filled := a.filled.push c
    current := some b }

/-! ## The invariant

`Charted` is about blocks, `Draft` about operations as well. Survivors have copies, copies are
filled in order, and what has a value stands in a block that was filled. -/

/-- The tables of an assembler fit its source and its output, and only survivors have copies. -/
structure Charted (g : Graph) (s : Liveness) (a : Assembler) : Prop where
  source_eq : a.source = g
  opMap_size : a.opMap.size = g.opCount
  blockMap_size : a.blockMap.size = g.blockCount
  sound : a.output.Sound
  origin_size : a.origin.size = a.output.blockCount
  copy_iff : ∀ {b c : BlockIndex}, a.copy? b = some c ↔ a.origin[c]? = some b
  survives : ∀ {b c : BlockIndex}, a.copy? b = some c → Survives g s b
  kind : ∀ {b c : BlockIndex} {blk blk' : Block}, a.copy? b = some c → g.blocks[b]? = some blk →
    a.output.blocks[c]? = some blk' → blk'.kind = blk.kind
  entry : a.copy? 0 = some 0
  value_lt : ∀ {i v : OpIndex}, a.value? i = some v → v < a.output.opCount

/-- The copy when the blocks below `n` were begun. The phis in `missing` do not have their inputs
yet. -/
structure Draft (g : Graph) (s : Liveness) (n : BlockIndex) (missing : List (OpIndex × OpIndex))
    (a : Assembler) : Prop extends Charted g s a where
  filled_eq : a.filled.toList = (List.range n).filterMap a.copy?
  /-- The block that receives operations is the one begun last. -/
  bound : ∀ {b c : BlockIndex}, a.output.bound = some c → a.copy? b = some c → b + 1 = n
  closed : ∀ {b c : BlockIndex}, a.copy? b = some c → b < n → a.output.bound ≠ some c →
    (a.output.span c).toList ≠ [] ∧ (exits g s b).map a.copy? = (a.output.successors c).map some
  fresh : ∀ {b c : BlockIndex}, a.copy? b = some c → n ≤ b → (a.output.span c).toList = []
  values : ∀ {v : OpIndex} {op : Operation}, a.output.ops[v]? = some op →
    (∃ i, (v, i) ∈ missing) ∨ ∀ j ∈ op.inputs, j < a.output.opCount
  condition : ∀ {v : OpIndex} {op : Operation} {t f : BlockIndex} {hint : Hint},
    a.output.ops[v]? = some op → op.action = .branch t f hint → op.inputs.length = 1
  phi : ∀ {b c : BlockIndex} {v : OpIndex} {op : Operation} {blk : Block},
    a.copy? b = some c → v ∈ (a.output.span c).toList → a.output.ops[v]? = some op →
    op.isPhi = true → g.blocks[b]? = some blk →
    HasLivePhi g s b ∧ (blk.isLoop = true → ∃ i, (v, i) ∈ a.waiting.toList) ∧
      ((∃ i, (v, i) ∈ missing) ∨ op.inputs.length = (a.output.predecessors c).length)
  waiting : ∀ {v i : OpIndex}, (v, i) ∈ missing → ∃ b c op op', i ∈ (g.span b).toList ∧
    g.ops[i]? = some op ∧ op.isPhi = true ∧ s.isLive i = true ∧ a.copy? b = some c ∧
    v ∈ (a.output.span c).toList ∧ a.output.ops[v]? = some op' ∧ op'.isPhi = true

/-- Of the operations of the source, those of `todo` are still to be copied, and the live ones among
the others have values. -/
structure Handled (g : Graph) (s : Liveness) (todo : List OpIndex) (a : Assembler) : Prop where
  value : ∀ {i : OpIndex}, s.isLive i = true → i ∉ todo → (a.value? i).isSome = true
  room : a.output.opCount + todo.length ≤ g.opCount

namespace Charted

variable (h : Charted g s a) {b b' c : BlockIndex}

include h

theorem paired : a.Paired := ⟨h.origin_size, h.copy_iff⟩

theorem copy_inj (hb : a.copy? b = some c) (hb' : a.copy? b' = some c) : b = b' :=
  h.paired.copy_inj hb hb'

theorem copy_lt (hb : a.copy? b = some c) : c < a.output.blockCount := h.paired.copy_lt hb

theorem exists_copied (hc : c < a.output.blockCount) : ∃ b, a.copy? b = some c :=
  h.paired.exists_copied hc

variable (hA : Liveness.Analysed g s)

include hA

/-- There is room for a block that has no copy yet. -/
theorem room (hb : b < g.blockCount) (hnone : a.copy? b = none) :
    a.output.blockCount < noHandle := by
  have hnew : b ∉ a.origin.toList := fun hmem ↦ by
    obtain ⟨c, hc⟩ := List.mem_iff_getElem?.mp hmem
    rw [Array.getElem?_toList, ← h.copy_iff, hnone] at hc
    cases hc
  have hsub : (b :: a.origin.toList).Subperm (List.range g.blockCount) := by
    refine (List.nodup_cons.mpr ⟨hnew, h.paired.nodup_origin⟩).subperm fun d hd ↦ ?_
    rw [List.mem_range]
    rcases List.mem_cons.mp hd with rfl | hd
    · exact hb
    · obtain ⟨c, hc⟩ := List.mem_iff_getElem?.mp hd
      rw [Array.getElem?_toList, ← h.copy_iff] at hc
      exact hA.survives_lt (h.survives hc)
  have hle := hsub.length_le
  rw [List.length_cons, Array.length_toList, h.origin_size, List.length_range] at hle
  exact Nat.lt_of_lt_of_le hle hA.sound.blocks_le

private theorem withCopy {blk : Block} (hb : Survives g s b) (hnone : a.copy? b = none)
    (hblk : g.blocks[b]? = some blk) : Charted g s (a.withCopy b blk) := by
  have hlt := hA.survives_lt hb
  have hsize : b < a.blockMap.size := by rw [h.blockMap_size]; exact hlt
  have hpaired : (a.withCopy b blk).Paired := h.paired.withCopy hnone hsize
  refine { h with
    blockMap_size := Array.size_setIfInBounds.trans h.blockMap_size
    sound := h.sound.addBlock (Assembler.addBlock_eq_withCopy (h.room hA hlt hnone))
    origin_size := hpaired.origin_size
    copy_iff := hpaired.copy_iff
    survives := fun hc ↦ ?_
    kind := fun {b' c blk₀ blk'} hc hblk₀ hblk' ↦ ?_
    entry := Assembler.copy?_withCopy_mono hsize hnone h.entry }
  · rcases Assembler.copy?_withCopy_cases hsize hc with ⟨rfl, -⟩ | hc
    · exact hb
    · exact h.survives hc
  · rcases Assembler.copy?_withCopy_cases hsize hc with ⟨rfl, rfl⟩ | hc
    · cases hblk.symm.trans hblk₀
      cases Assembler.withCopy_block_self.symm.trans hblk'
      rfl
    · rw [Assembler.withCopy_block_of_lt (h.copy_lt hc)] at hblk'
      exact h.kind hc hblk₀ hblk'

omit hA in
private theorem append {op : Operation} (waiting : Array (OpIndex × OpIndex))
    (hadd : a.output.addOperation op = .ok (a.output.appended c op)) :
    Charted g s { a with output := a.output.appended c op, waiting } := by
  refine { h with
    sound := h.sound.addOperation hadd
    origin_size := h.origin_size.trans Graph.appended_blockCount.symm
    kind := fun {b d blk blk'} hd hblk hblk' ↦ ?_
    value_lt := fun hv ↦ (h.value_lt hv).trans_le
      (Graph.appended_opCount.symm ▸ Nat.le_succ a.output.opCount) }
  change (a.output.appended c op).blocks[d]? = some blk' at hblk'
  by_cases hdc : d = c
  · subst hdc
    obtain ⟨blk₀, hblk₀⟩ := Graph.exists_block (h.copy_lt hd)
    rw [Graph.appended_block_self hblk₀] at hblk'
    cases hblk'
    exact (h.kind hd hblk hblk₀ : blk₀.kind = blk.kind)
  · rw [Graph.appended_block_of_ne hdc] at hblk'
    exact h.kind hd hblk hblk'

end Charted

namespace Draft

variable {missing : List (OpIndex × OpIndex)}

/-- A survivor among the blocks that were begun has a copy, and so has the next one. -/
theorem copied (h : Draft g s n missing a) {t : BlockIndex} (ht : Survives g s t) :
    t < n ∨ t = n ∧ a.output.bound = none → ∃ c, a.copy? t = some c := by
  induction ht with
  | entry => exact fun _ ↦ ⟨0, h.entry⟩
  | @exit b t hb hlt hexit ih =>
    intro hle
    obtain ⟨c, hc⟩ := ih (Or.inl (by lia))
    have hnot : a.output.bound ≠ some c := fun hbound ↦ by
      have hbn := h.bound hbound hc
      rcases hle with hlt' | ⟨-, hnone⟩
      · lia
      · rw [hnone] at hbound
        cases hbound
    have hmem : a.copy? t ∈ (exits g s b).map a.copy? := List.mem_map_of_mem hexit
    rw [(h.closed hc (by lia) hnot).2, List.mem_map] at hmem
    obtain ⟨d, -, hd⟩ := hmem
    exact ⟨d, hd.symm⟩

/-! ## Steps that touch blocks

A copy is made when the first edge to the block is renamed. It is empty at first, and concerns
neither values nor edges. -/

private theorem withCopy (h : Draft g s n missing a) (hA : Liveness.Analysed g s) {t : BlockIndex}
    {blk : Block} (ht : Survives g s t) (hnone : a.copy? t = none)
    (hblk : g.blocks[t]? = some blk) : Draft g s n missing (a.withCopy t blk) := by
  have hsize : t < a.blockMap.size := by rw [h.blockMap_size]; exact hA.survives_lt ht
  have hnt : n ≤ t := by
    by_contra hlt
    obtain ⟨c, hc⟩ := h.copied ht (Or.inl (Nat.not_le.mp hlt))
    rw [hnone] at hc
    cases hc
  have hspan : ∀ c, (a.withCopy t blk).output.span c = a.output.span c :=
    Graph.span_push_empty a.output blk.kind blk.deferred
  have hsucc : ∀ c, (a.withCopy t blk).output.successors c = a.output.successors c := fun c ↦
    Graph.successors_congr rfl (hspan c)
  have hempty : (a.output.span a.output.blockCount).toList = [] :=
    Graph.toList_span_of_le (Nat.le_refl _)
  have hcases : ∀ {b c}, (a.withCopy t blk).copy? b = some c →
      b = t ∧ c = a.output.blockCount ∨ a.copy? b = some c := Assembler.copy?_withCopy_cases hsize
  have hmono : ∀ {b c}, a.copy? b = some c → (a.withCopy t blk).copy? b = some c :=
    Assembler.copy?_withCopy_mono hsize hnone
  exact {
    h.toCharted.withCopy hA ht hnone hblk with
    filled_eq := by
      refine h.filled_eq.trans (List.filterMap_congr fun b hb ↦ ?_)
      rw [Assembler.copy?_withCopy hsize, if_neg]
      rintro rfl
      exact absurd (List.mem_range.mp hb) (Nat.not_lt.mpr hnt)
    bound := by
      intro b c hbound hc
      rcases hcases hc with ⟨-, rfl⟩ | hc
      · exact absurd (h.sound.bound_lt hbound) (Nat.lt_irrefl _)
      · exact h.bound hbound hc
    closed := by
      intro b c hc hlt hbound
      rcases hcases hc with ⟨rfl, -⟩ | hc
      · exact absurd hlt (Nat.not_lt.mpr hnt)
      · obtain ⟨hne, hexits⟩ := h.closed hc hlt hbound
        rw [hspan, hsucc, ← hexits]
        refine ⟨hne, List.map_congr_left fun e he ↦ ?_⟩
        have hmem : a.copy? e ∈ (exits g s b).map a.copy? := List.mem_map_of_mem he
        rw [hexits, List.mem_map] at hmem
        obtain ⟨d, -, hd⟩ := hmem
        rw [← hd, hmono hd.symm]
    fresh := by
      intro b c hc hle
      rw [hspan]
      rcases hcases hc with ⟨-, rfl⟩ | hc
      · exact hempty
      · exact h.fresh hc hle
    values := h.values
    condition := h.condition
    phi := by
      intro b c v op blk₀ hc hv hop hphi hblk₀
      rw [hspan] at hv
      rcases hcases hc with ⟨-, rfl⟩ | hc
      · rw [hempty] at hv
        cases hv
      · exact h.phi hc hv hop hphi hblk₀
    waiting := by
      intro v i hmem
      obtain ⟨b, c, op, op', hi, hop, hphi, hlive, hc, hv, hop', hphi'⟩ := h.waiting hmem
      exact ⟨b, c, op, op', hi, hop, hphi, hlive, hmono hc, by rw [hspan]; exact hv, hop', hphi'⟩ }

/-- What copying blocks leaves as it is. -/
structure Widens (a a' : Assembler) : Prop where
  copy : ∀ {b c : BlockIndex}, a.copy? b = some c → a'.copy? b = some c
  value_eq : a'.value? = a.value?
  waiting_eq : a'.waiting = a.waiting
  bound_eq : a'.output.bound = a.output.bound
  opCount_eq : a'.output.opCount = a.output.opCount

theorem Widens.refl (a : Assembler) : Widens a a := ⟨fun h ↦ h, rfl, rfl, rfl, rfl⟩

theorem Widens.trans {a₁ : Assembler} (h : Widens a a₁) (h' : Widens a₁ a') : Widens a a' :=
  ⟨fun hc ↦ h'.copy (h.copy hc), h'.value_eq.trans h.value_eq, h'.waiting_eq.trans h.waiting_eq,
    h'.bound_eq.trans h.bound_eq, h'.opCount_eq.trans h.opCount_eq⟩

/-- The copy of a survivor can be had. -/
theorem exists_mapBlock (h : Draft g s n missing a) (hA : Liveness.Analysed g s) {t : BlockIndex}
    (ht : Survives g s t) : ∃ c a', Yields (Build.mapBlock t) a c a' ∧ Draft g s n missing a' ∧
      a'.copy? t = some c ∧ Widens a a' := by
  have htlt := hA.survives_lt ht
  have hsize : t < a.blockMap.size := by rw [h.blockMap_size]; exact htlt
  have hget : a.blockMap[t]? = some (a.copy? t) := by
    rw [Assembler.copy?, Array.getElem?_eq_getElem hsize, Option.join_some]
  cases hc : a.copy? t with
  | some c =>
    refine ⟨c, a, ?_, h, hc, .refl a⟩
    rw [Build.mapBlock, yields_bind]
    refine ⟨a, a, yields_get.mpr ⟨rfl, rfl⟩, ?_⟩
    rw [hget, hc]
    exact yields_pure.mpr ⟨rfl, rfl⟩
  | none =>
    obtain ⟨blk, hblk⟩ := Graph.exists_block htlt
    have hadd : a.output.addBlock blk.kind blk.deferred = .ok (a.withCopy t blk).output :=
      Assembler.addBlock_eq_withCopy (h.room hA htlt hc)
    refine ⟨a.output.blockCount, a.withCopy t blk, ?_, h.withCopy hA ht hc hblk, ?_,
      ⟨Assembler.copy?_withCopy_mono hsize hc, rfl, rfl, rfl, rfl⟩⟩
    · rw [Build.mapBlock, yields_bind]
      refine ⟨a, a, yields_get.mpr ⟨rfl, rfl⟩, ?_⟩
      rw [hget, hc]
      simp only [yields_bind, Build.yields_ofExcept, yields_set, yields_pure]
      exact ⟨blk, a, ⟨Graph.block_eq_ok.mpr (by rw [h.source_eq]; exact hblk), rfl⟩, _, a,
        ⟨hadd, rfl⟩, ⟨⟩, _, rfl, trivial, rfl⟩
    · rw [Assembler.copy?_withCopy hsize, if_pos rfl]

/-- A block without a copy is passed by. -/
theorem skip (h : Draft g s n missing a) (hbound : a.output.bound = none)
    (hnone : a.copy? n = none) : Draft g s (n + 1) missing a :=
  { h with
    filled_eq := by rw [List.range_succ, List.filterMap_append, h.filled_eq]; simp [hnone]
    bound := fun hb ↦ by
      rw [hbound] at hb
      cases hb
    closed := fun {b c} hc hlt hbound ↦ by
      rcases Nat.lt_succ_iff_lt_or_eq.mp hlt with hlt | rfl
      · exact h.closed hc hlt hbound
      · rw [hnone] at hc
        cases hc
    fresh := fun hc hle ↦ h.fresh hc (Nat.le_of_succ_le hle) }

/-- The copy of the next block is still empty and can be filled. -/
theorem begun (h : Draft g s n missing a) (hbound : a.output.bound = none) {c : BlockIndex}
    (hc : a.copy? n = some c) : a.output.bind c = .ok (a.begun n c).output ∧
      Draft g s (n + 1) missing (a.begun n c) := by
  obtain ⟨blk, hblk⟩ := Graph.exists_block (h.copy_lt hc)
  -- a block that was not filled yet has no operations, as blocks are filled in order
  have hspan : blk.span? = none := by
    have hempty := h.fresh hc (Nat.le_refl n)
    rw [Graph.span_of_block hblk, Block.span] at hempty
    cases hs : blk.span? with
    | none => rfl
    | some t =>
      have hpos := h.sound.span_pos hblk hs
      have hmem : t.first ∈ t.toList := Span.mem_toList.mpr ⟨Nat.le_refl _, hpos⟩
      rw [hs, Option.getD_some] at hempty
      rw [hempty] at hmem
      cases hmem
  have hbind : a.output.bind c = .ok (a.begun n c).output := by
    rw [Graph.bind, hbound]
    change (a.output.block c >>= _) = _
    rw [Graph.block_eq_ok.mpr hblk, ok_bind, if_neg (by simp [hspan])]
    rfl
  exact ⟨hbind, {
    source_eq := h.source_eq
    opMap_size := h.opMap_size
    blockMap_size := h.blockMap_size
    sound := h.sound.bind hbind
    origin_size := h.origin_size
    copy_iff := h.copy_iff
    survives := h.survives
    kind := h.kind
    entry := h.entry
    value_lt := h.value_lt
    filled_eq := by
      have hcopy : (a.begun n c).copy? = a.copy? := rfl
      rw [hcopy, List.range_succ, List.filterMap_append, ← h.filled_eq, Assembler.begun,
        Array.toList_push]
      simp [hc]
    bound := by
      intro b d hd hb
      cases hd
      rw [h.copy_inj hb hc]
    closed := by
      intro b d hb hlt hne
      have hne' : b ≠ n := by
        rintro rfl
        cases hc.symm.trans hb
        exact hne rfl
      exact h.closed hb (by lia) (by rw [hbound]; simp)
    fresh := fun hc hle ↦ h.fresh hc (Nat.le_of_succ_le hle)
    values := h.values
    condition := h.condition
    phi := h.phi
    waiting := h.waiting }⟩

/-! ## Steps that touch operations

An operation is added to the block that is being filled. There is room for it, its edges lead to
blocks that may still get edges, and a phi that has its inputs keeps its predecessors. -/

theorem withValue (h : Draft g s n missing a) {i : OpIndex} {v : Option OpIndex}
    (hi : i < g.opCount) (hv : ∀ w, v = some w → w < a.output.opCount) :
    Draft g s n missing (a.withValue i v) :=
  { h with
    opMap_size := Array.size_setIfInBounds.trans h.opMap_size
    value_lt := fun {j w} hw ↦ by
      rw [Assembler.value?_withValue (by rw [h.opMap_size]; exact hi)] at hw
      split at hw
      · exact hv w hw
      · exact h.value_lt hw }

/-- What `op` has to be to come next in the copy `c` of block `n`, when the phis of `waiting` wait
for their inputs from then on. -/
structure Next (g : Graph) (s : Liveness) (n c : BlockIndex) (op : Operation)
    (waiting : Array (OpIndex × OpIndex)) (a : Assembler) : Prop where
  exits : op.isTerminator = true → (exits g s n).map a.copy? = op.successors.map some
  values : (∃ i, (a.output.opCount, i) ∈ waiting.toList) ∨ ∀ j ∈ op.inputs, j < a.output.opCount
  condition : ∀ {t f : BlockIndex} {hint : Hint},
    op.action = .branch t f hint → op.inputs.length = 1
  phi : op.isPhi = true → HasLivePhi g s n ∧
    (∀ {blk}, g.blocks[n]? = some blk → blk.isLoop = true →
      ∃ i, (a.output.opCount, i) ∈ waiting.toList) ∧
    ((∃ i, (a.output.opCount, i) ∈ waiting.toList) ∨
      op.inputs.length = (a.output.predecessors c).length)
  kept : ∀ e ∈ a.waiting.toList, e ∈ waiting.toList
  added : ∀ {v i : OpIndex}, (v, i) ∈ waiting.toList → (v, i) ∈ a.waiting.toList ∨
    v = a.output.opCount ∧ op.isPhi = true ∧ ∃ op₀, i ∈ (g.span n).toList ∧
      g.ops[i]? = some op₀ ∧ op₀.isPhi = true ∧ s.isLive i = true

section

variable (h : Draft g s (n + 1) a.waiting.toList a) {b c d : BlockIndex} (hc : a.copy? n = some c)
  {op : Operation} {waiting : Array (OpIndex × OpIndex)} (hnext : Next g s n c op waiting a)

include h hc hnext

/-- No edge is added to a block behind the one that is being filled unless it is a loop: rewritten
jumps lead ahead, and only backedges lead back. -/
private theorem not_mem_successors (hA : Liveness.Analysed g s) {blk : Block}
    (hd : a.copy? b = some d) (hspan : (a.output.span d).toList ≠ [])
    (hblk : g.blocks[b]? = some blk) (hloop : blk.isLoop = false) : d ∉ op.successors := by
  intro hmem
  have hmap := hnext.exits (Operation.isTerminator_of_mem_successors hmem)
  have hsome : some d ∈ op.successors.map some := List.mem_map_of_mem hmem
  rw [← hmap, List.mem_map] at hsome
  obtain ⟨e, he, hed⟩ := hsome
  cases h.copy_inj hd hed
  have hle : b ≤ n := by
    by_contra hlt
    exact hspan (h.fresh hd (by lia))
  have harc := hA.arc_of_exit_le (hA.survives_lt (h.survives hc)) he hle
  rw [Liveness.isLoop_of_arc hA.fit hA.ordered hblk harc hle] at hloop
  cases hloop

variable (hbound : a.output.bound = some c)

include hbound

omit hc in
private theorem addOperation_next (hroom : a.output.opCount < noHandle) :
    a.output.addOperation op = .ok (a.output.appended c op) := by
  refine Graph.addOperation_of_bound hbound hroom fun t ht ↦ ?_
  have hsome : some t ∈ op.successors.map some := List.mem_map_of_mem ht
  rw [← hnext.exits (Operation.isTerminator_of_mem_successors ht), List.mem_map] at hsome
  obtain ⟨e, -, he⟩ := hsome
  exact h.copy_lt he

private theorem closed_next (hd : a.copy? b = some d) (hlt : b < n + 1)
    (hopen : (a.output.appended c op).bound ≠ some d) :
    ((a.output.appended c op).span d).toList ≠ [] ∧
      (exits g s b).map a.copy? = ((a.output.appended c op).successors d).map some := by
  by_cases hdc : d = c
  · subst hdc
    cases h.copy_inj hd hc
    have hend : op.isTerminator = true := by
      by_contra hend
      exact hopen (Graph.appended_bound_eq_some.mpr ⟨Bool.not_eq_true _ ▸ hend, rfl⟩)
    have hspan : (a.output.span d).toList ++ [a.output.opCount] ≠ [] := by simp
    rw [Graph.appended_successors_self op h.sound hbound,
      Graph.appended_span_toList_self op h.sound hbound]
    exact ⟨hspan, hnext.exits hend⟩
  · rw [Graph.appended_span_of_ne hdc, Graph.appended_successors_of_ne h.sound hdc]
    refine h.closed hd hlt ?_
    rw [hbound]
    exact fun heq ↦ hdc (Option.some.inj heq).symm

private theorem phi_next (hA : Liveness.Analysed g s) {v : OpIndex} {op' : Operation} {blk : Block}
    (hd : a.copy? b = some d) (hv : v ∈ ((a.output.appended c op).span d).toList)
    (hop' : (a.output.appended c op).ops[v]? = some op') (hphi : op'.isPhi = true)
    (hblk : g.blocks[b]? = some blk) :
    HasLivePhi g s b ∧ (blk.isLoop = true → ∃ i, (v, i) ∈ waiting.toList) ∧
      ((∃ i, (v, i) ∈ waiting.toList) ∨
        op'.inputs.length = ((a.output.appended c op).predecessors d).length) := by
  rw [Graph.mem_appended_span_iff op h.sound hbound] at hv
  rcases Graph.appended_op_cases hop' with ⟨rfl, rfl⟩ | ⟨hlt, hop'⟩
  · -- the new operation is a phi, and adds no edge
    obtain ⟨rfl, -⟩ := hv.resolve_left fun hv ↦
      absurd (h.sound.lt_of_mem_span hv) (Nat.lt_irrefl _)
    cases h.copy_inj hd hc
    obtain ⟨hlive, hwait, hlen⟩ := hnext.phi hphi
    have hnone := Operation.successors_eq_nil (Operation.isTerminator_of_isPhi hphi)
    rw [Graph.appended_predecessors_of_notMem (by rw [hnone]; exact List.not_mem_nil)]
    exact ⟨hlive, hwait hblk, hlen⟩
  · have hv := hv.resolve_right fun hnew ↦ Nat.ne_of_lt hlt hnew.2
    obtain ⟨hlive, hwait, hlen⟩ := h.phi hd hv hop' hphi hblk
    have hwait' : blk.isLoop = true → ∃ i, (v, i) ∈ waiting.toList := fun hloop ↦
      (hwait hloop).imp fun i hi ↦ hnext.kept _ hi
    refine ⟨hlive, hwait', ?_⟩
    cases hloop : blk.isLoop with
    | true => exact Or.inl (hwait' hloop)
    | false =>
      rw [Graph.appended_predecessors_of_notMem (h.not_mem_successors hc hnext hA hd
        (List.ne_nil_of_mem hv) hblk hloop)]
      exact hlen.imp_left (Exists.imp fun i hi ↦ hnext.kept _ hi)

/-- A new operation in the block that is being filled. -/
theorem append (hA : Liveness.Analysed g s) (hroom : a.output.opCount < noHandle) :
    a.output.addOperation op = .ok (a.output.appended c op) ∧
      Draft g s (n + 1) waiting.toList { a with output := a.output.appended c op, waiting } := by
  have hadd := h.addOperation_next hnext hbound hroom
  have hspan : ∀ {d v}, v ∈ ((a.output.appended c op).span d).toList ↔
      v ∈ (a.output.span d).toList ∨ d = c ∧ v = a.output.opCount :=
    Graph.mem_appended_span_iff op h.sound hbound
  exact ⟨hadd, {
    h.toCharted.append waiting hadd with
    filled_eq := h.filled_eq
    bound := by
      intro b d hd hb
      rw [(Graph.appended_bound_eq_some.mp hd).2] at hb
      exact h.bound hbound hb
    closed := h.closed_next hc hnext hbound
    fresh := by
      intro b d hd hle
      have hdc : d ≠ c := by
        rintro rfl
        rw [h.copy_inj hd hc] at hle
        exact absurd hle (Nat.not_succ_le_self n)
      change ((a.output.appended c op).span d).toList = []
      rw [Graph.appended_span_of_ne hdc]
      exact h.fresh hd hle
    values := by
      intro v op' hop'
      change _ ∨ ∀ j ∈ op'.inputs, j < (a.output.appended c op).opCount
      rw [Graph.appended_opCount]
      rcases Graph.appended_op_cases hop' with ⟨rfl, rfl⟩ | ⟨-, hop'⟩
      · exact hnext.values.imp_right fun hin j hj ↦ Nat.lt_succ_of_lt (hin j hj)
      · exact (h.values hop').imp (Exists.imp fun i hi ↦ hnext.kept _ hi)
          fun hin j hj ↦ Nat.lt_succ_of_lt (hin j hj)
    condition := by
      intro v op' t f hint hop' haction
      rcases Graph.appended_op_cases hop' with ⟨-, rfl⟩ | ⟨-, hop'⟩
      · exact hnext.condition haction
      · exact h.condition hop' haction
    phi := h.phi_next hc hnext hbound hA
    waiting := by
      intro v i hmem
      rcases hnext.added hmem with hmem | ⟨rfl, hphi, op₀, hi, hop₀, hphi₀, hlive⟩
      · obtain ⟨b, d, op₀, op', hi, hop₀, hphi₀, hlive, hd, hv, hop', hphi'⟩ := h.waiting hmem
        refine ⟨b, d, op₀, op', hi, hop₀, hphi₀, hlive, hd, hspan.mpr (Or.inl hv), ?_, hphi'⟩
        exact (Graph.appended_op_of_lt (h.sound.lt_of_mem_span hv)).trans hop'
      · exact ⟨n, c, op₀, op, hi, hop₀, hphi₀, hlive, hc, hspan.mpr (Or.inr ⟨rfl, rfl⟩),
          Graph.appended_op_self, hphi⟩ }⟩

end

/-! ## The inputs of a phi

Every predecessor of the copied block has a slot of its own in the source, by counting, so that an
input is found for each. -/

/-- An edge to a block with a live phi was there before. -/
private theorem count_predecessors_le (h : Draft g s n missing a) (hA : Liveness.Analysed g s)
    {b c p p' : BlockIndex} (hphi : HasLivePhi g s b) (hc : a.copy? b = some c)
    (hp : a.copy? p = some p') :
    (a.output.predecessors c).count p' ≤ (g.predecessors b).count p := by
  rw [h.sound.count_predecessors_eq, hA.sound.count_predecessors_eq]
  by_cases hclosed : p < n ∧ a.output.bound ≠ some p'
  · rw [count_of_map_eq (h.closed hp hclosed.1 hclosed.2).2 hc fun hb ↦ h.copy_inj hb hc]
    exact hA.count_exits_le (hA.survives_lt (h.survives hp)) hphi.not_outlet
  · have hnone : a.output.successors p' = [] := by
      by_cases hlt : p < n
      · exact Graph.successors_of_bound h.sound (not_not.mp fun hne ↦ hclosed ⟨hlt, hne⟩)
      · exact Graph.successors_of_empty (h.fresh hp (Nat.not_lt.mp hlt))
    rw [hnone, List.count_nil]
    exact Nat.zero_le _

private theorem exists_takeInput (h : Draft g s n missing a) (hA : Liveness.Analysed g s)
    {i : OpIndex} {op : Operation} {b c : BlockIndex} (hphi : HasLivePhi g s b)
    (hop : g.ops[i]? = some op) (harity : op.inputs.length = (g.predecessors b).length)
    (hc : a.copy? b = some c) {done rest : List BlockIndex} {p' : BlockIndex}
    {acc : List (BlockIndex × Nat) × Array (Option OpIndex)}
    (hall : a.output.predecessors c = done ++ p' :: rest)
    (hacc : Build.Matching a (g.predecessors b) op done acc) :
    ∃ acc', Yields (Build.takeInput a i b op acc p') a acc' a ∧
      Build.Matching a (g.predecessors b) op (done ++ [p']) acc' := by
  have hmem : p' ∈ a.output.predecessors c := by rw [hall]; simp
  obtain ⟨p, hp⟩ := h.exists_copied (h.sound.edge_lt (Graph.mem_predecessors.mp hmem)).1
  have horigin := h.copy_iff.mp hp
  have hleft : Build.countCopies a p done < (positionsOf (g.predecessors b) p).length := by
    have hle := h.count_predecessors_le hA hphi hc hp
    rw [hall, List.count_append, List.count_cons_self] at hle
    rw [length_positionsOf, Build.countCopies_eq h.paired hp]
    omega
  have hunused := hacc.unused p
  obtain ⟨⟨q, k⟩, hqk⟩ : ∃ e, acc.1.find? (·.1 = p) = some e := by
    rw [← Option.isSome_iff_exists, ← List.head?_filter, hunused, List.head?_drop,
      Option.isSome_iff_ne_none, Ne, List.getElem?_eq_none_iff]
    rwa [positionsOf, List.length_map, ← Nat.not_le] at hleft
  have hk : k < op.inputs.length := by
    have hq := List.find?_some hqk
    have hin : (q, k) ∈ acc.1.filter (·.1 = p) :=
      List.mem_filter.mpr ⟨List.mem_of_find?_eq_some hqk, hq⟩
    rw [hunused] at hin
    have hzip := (List.mem_filter.mp (List.mem_of_mem_drop hin)).1
    rw [harity]
    exact (List.getElem?_eq_some_iff.mp (List.mem_zipIdx_iff_getElem?.mp hzip)).1
  have hj := List.getElem?_eq_getElem hk
  have hlt := (hA.fit.wellFormed.referring hop).value_lt _ (List.getElem_mem hk)
  refine ⟨_, ?_, hacc.step horigin hqk hj⟩
  rw [Build.takeInput]
  simp only [yields_bind, Build.yields_ofExcept]
  refine ⟨p, a, ⟨Graph.lookup_eq_ok.mpr horigin, rfl⟩, ?_⟩
  rw [hqk]
  simp only [yields_bind, Build.yields_ofExcept, yields_pure]
  refine ⟨_, a, ⟨Graph.lookup_eq_ok.mpr (by rw [List.getElem?_toArray]; exact hj), rfl⟩,
    a.value? _, a, ?_, rfl, rfl⟩
  rw [Build.mapValue]
  simp only [yields_bind, yields_get, Build.yields_ofExcept]
  refine ⟨a, a, ⟨rfl, rfl⟩, Graph.lookup_eq_ok.mpr ?_, rfl⟩
  rw [← h.opMap_size] at hlt
  rw [Assembler.value?, Array.getElem?_eq_getElem hlt, Option.join_some]

/-- The inputs of a live phi can be had, one for each predecessor that the copy of its block has. -/
theorem exists_phiInputs (h : Draft g s n missing a) (hA : Liveness.Analysed g s) {i : OpIndex}
    {op : Operation} {b c : BlockIndex} {blk : Block} (hi : i ∈ (g.span b).toList)
    (hop : g.ops[i]? = some op) (hphi : op.isPhi = true) (hlive : s.isLive i = true)
    (hblk : g.blocks[b]? = some blk) (hc : a.copy? b = some c) :
    ∃ inputs, Yields (Build.phiInputs i) a (inputs, !blk.isLoop) a ∧
      inputs.length = (a.output.predecessors c).length ∧
      ∀ x ∈ inputs, ∃ j ∈ op.inputs, x = a.value? j := by
  obtain ⟨blk', hblk'⟩ := Graph.exists_block (h.copy_lt hc)
  have hspan : i ∈ blk.span.toList := Graph.span_of_block hblk ▸ hi
  have harity := (hA.fit.wellFormed.matched hblk hspan hop hphi).2
  have hstart : Build.Matching a (g.predecessors b) op []
      ((g.predecessors b).zipIdx, #[]) := ⟨rfl, fun p ↦ rfl, nofun⟩
  obtain ⟨acc, hfold, hacc⟩ := exists_foldlM (s := a) (f := Build.takeInput a i b op)
    (fun hall hacc ↦ h.exists_takeInput hA ⟨i, op, hi, hop, hphi, hlive⟩ hop harity hc hall hacc)
    (List.nil_append _).symm hstart
  have hsource := h.source_eq
  refine ⟨acc.2.toList, ?_, ?_, fun x hx ↦ ?_⟩
  · rw [Build.phiInputs_eq]
    simp only [yields_bind, yields_get, Build.yields_ofExcept, yields_pure]
    refine ⟨a, a, ⟨rfl, rfl⟩, b, a, ⟨?_, rfl⟩, op, a, ⟨?_, rfl⟩, blk, a, ⟨?_, rfl⟩, blk', a,
      ⟨?_, rfl⟩, acc, a, ?_, rfl, rfl⟩
    · rw [hsource, Graph.blockOf_eq_ok]
      exact (hA.sound.mem_span_iff i b).mp hi
    · rw [hsource, Graph.op_eq_ok.mpr hop]
    · rw [hsource, Graph.block_eq_ok.mpr hblk]
    · rw [hc, Option.getD_some, Graph.block_eq_ok.mpr hblk']
    · rw [hc, Option.getD_some, hsource]
      exact hfold
  · rw [Array.length_toList, hacc.size_eq]
  · obtain ⟨q, hq⟩ := List.mem_iff_getElem?.mp hx
    rw [Array.getElem?_toList] at hq
    have hlt := (Array.getElem?_eq_some_iff.mp hq).1
    rw [hacc.size_eq] at hlt
    obtain ⟨p, k, j, -, -, hj, hv⟩ := hacc.input (List.getElem?_eq_getElem hlt)
    exact ⟨j, List.mem_of_getElem? hj, Option.some.inj (hq.symm.trans hv)⟩

end Draft

end Flowgraph
