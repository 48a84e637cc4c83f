import Flowgraph.Proofs.Rebuild.Copy

/-!
# Copying an operation

What copying does to an operation comes down to two things. Mostly the operation is recorded: its
image becomes the next operation of the block that is copied. A phi may be forwarded instead, and
then shares the value that another operation has.

## Phis that have their inputs

Recording a jump adds edges, and a phi that has its inputs must not get another predecessor. It does
not: a later edge to a merge could only be a backedge, which a merge does not have, or come from a
rewritten jump, which leads to blocks without live phis.
-/

namespace Flowgraph

namespace Assembler

variable {a : Assembler} {i : OpIndex}

theorem value?_withValue_mono (hi : i < a.opMap.size) (hnone : a.value? i = none)
    {v : Option OpIndex} {j w : OpIndex} (hj : a.value? j = some w) :
    (a.withValue i v).value? j = some w := by
  rw [value?_withValue hi, if_neg, hj]
  rintro rfl
  rw [hnone] at hj
  cases hj

/-- The assembler with `op` as the next operation of block `c`, which stands for operation `i`. -/
def recorded (a : Assembler) (c : BlockIndex) (i : OpIndex) (op : Operation)
    (waiting : Array (OpIndex × OpIndex)) : Assembler :=
  { a with output := a.output.appended c op, waiting }.withValue i (some a.output.opCount)

variable {c : BlockIndex} {op : Operation} {waiting : Array (OpIndex × OpIndex)}

theorem value?_recorded (hi : i < a.opMap.size) (j : OpIndex) :
    (a.recorded c i op waiting).value? j =
      if j = i then some a.output.opCount else a.value? j :=
  value?_withValue (a := { a with output := a.output.appended c op, waiting }) hi j

theorem value?_recorded_mono (hi : i < a.opMap.size) (hnone : a.value? i = none) {j w : OpIndex}
    (hj : a.value? j = some w) : (a.recorded c i op waiting).value? j = some w :=
  value?_withValue_mono (a := { a with output := a.output.appended c op, waiting }) hi hnone hj

end Assembler

namespace Copying

variable {g : Graph} {s : Liveness} {fwd : Bool} {ρ : OpIndex → OpIndex} {n : BlockIndex}
  {a a' : Assembler}

/-! ## New copies of blocks

Renaming the targets of an operation may make copies of blocks. A new copy is empty, and so is what
its source has of values. -/

section

variable (h : Copying g s fwd ρ n a) {b : BlockIndex} (hb : a.copy? b = none)
  (hlt : b < a.blockMap.size) {blk : Block} (hg : g.Sound)

include h hb hlt hg

private theorem span_withCopy {b' c : BlockIndex} (hc : (a.withCopy b blk).copy? b' = some c) :
    ((a.withCopy b blk).output.span c).toList = (g.span b').toList.filterMap (a.own ρ) := by
  have hspan : (a.withCopy b blk).output.span c = a.output.span c :=
    Graph.span_push_empty a.output blk.kind blk.deferred c
  rw [hspan]
  rcases Assembler.copy?_withCopy_cases hlt hc with ⟨rfl, rfl⟩ | hc
  · rw [Graph.toList_span_of_le (Nat.le_refl _), eq_comm, List.filterMap_eq_nil_iff]
    intro i hi
    rw [Assembler.own, h.value_eq_none hg hb hi, ite_self]
  · exact h.span hc

private theorem copy?_of_withCopy {b' c : BlockIndex} {i v : OpIndex} (hv : a.value? i = some v)
    (hi : i ∈ (g.span b').toList) (hc : (a.withCopy b blk).copy? b' = some c) :
    a.copy? b' = some c := by
  rcases Assembler.copy?_withCopy_cases hlt hc with ⟨rfl, -⟩ | hc
  · rw [h.value_eq_none hg hb hi] at hv
    cases hv
  · exact hc

private theorem withCopy (hroom : a.output.blockCount < noHandle) :
    Copying g s fwd ρ n (a.withCopy b blk) := by
  have hmono : ∀ {b' c}, a.copy? b' = some c → (a.withCopy b blk).copy? b' = some c :=
    Assembler.copy?_withCopy_mono hlt hb
  refine {
    source_eq := h.source_eq
    opMap_size := h.opMap_size
    blockMap_size := Array.size_setIfInBounds.trans h.blockMap_size
    sound := h.sound.addBlock (Assembler.addBlock_eq_withCopy hroom)
    origin_size := (h.paired.withCopy hb hlt).origin_size
    copy_iff := (h.paired.withCopy hb hlt).copy_iff
    plain := h.plain
    root := h.root
    value_root := h.value_root
    span := h.span_withCopy hb hlt hg
    owner := fun {i v} hv ↦ ?_
    image := fun hv hop ↦ ?_
    phi := fun hv hi hop hphi hop' hc hblk hloop ↦ ?_
    distinct := h.distinct
    waiting := h.waiting
    of_waiting := h.of_waiting
    forwarded := fun hne ↦ ?_ }
  · obtain ⟨b', c, hi, hle, hc⟩ := h.owner hv
    exact ⟨b', c, hi, hle, hmono hc⟩
  · obtain ⟨op', hop', himage⟩ := h.image hv hop
    exact ⟨op', hop', himage.mono hmono fun hv ↦ hv⟩
  · have hc := h.copy?_of_withCopy hb hlt hg (Assembler.own_eq_some.mp hv).2 hi hc
    exact (h.phi hv hi hop hphi hop' hc hblk hloop).mono rfl hmono fun hv ↦ hv
  · obtain ⟨b', c, blk', op, v, inputs, hfwd⟩ := h.forwarded hne
    exact ⟨b', c, blk', op, v, inputs, hfwd.mono rfl hmono fun hv ↦ hv⟩

end

theorem mapBlock (hg : g.Sound) (h : Copying g s fwd ρ n a) {b c : BlockIndex}
    (hy : Yields (Build.mapBlock b) a c a') :
    Copying g s fwd ρ n a' ∧ a.Grows a' ∧ a'.copy? b = some c ∧ a'.value? = a.value? := by
  obtain ⟨hc, hmono⟩ := Build.copy?_of_mapBlock hy
  rcases Build.yields_mapBlock hy with ⟨-, rfl⟩ | ⟨hb, hlt, rfl, blk, -, hroom, rfl⟩
  · exact ⟨h, .refl a', hc, rfl⟩
  · exact ⟨h.withCopy hb hlt hg hroom, ⟨hmono, fun hv ↦ hv, rfl, fun hc ↦ hc⟩, hc, rfl⟩

private theorem rename (hg : g.Sound) (h : Copying g s fwd ρ n a) {op op' : Operation}
    (hy : Yields (op.rename Build.mapBlock Build.mapInput) a op' a') :
    Copying g s fwd ρ n a' ∧ a.Grows a' ∧ a'.value? = a.value? ∧
      op.RenamedTo a'.copy? a'.value? op' := by
  have hkeeps : ∀ t ∈ op.successors, ∀ {c a₁ a₂},
      Copying g s fwd ρ n a₁ ∧ a.Grows a₁ ∧ a₁.value? = a.value? →
      Yields (Build.mapBlock t) a₁ c a₂ →
      Copying g s fwd ρ n a₂ ∧ a.Grows a₂ ∧ a₂.value? = a.value? := by
    rintro t - c a₁ a₂ ⟨h₁, hgrows₁, hvalue₁⟩ hy
    obtain ⟨h₂, hgrows₂, -, hvalue₂⟩ := h₁.mapBlock hg hy
    exact ⟨h₂, hgrows₁.trans hgrows₂, hvalue₂.trans hvalue₁⟩
  obtain ⟨⟨h', hgrows, hvalue⟩, hren⟩ :=
    Build.renamedTo_of_rename hkeeps ⟨h, .refl a, rfl⟩ hy
  exact ⟨h', hgrows, hvalue, hren⟩

/-! ## Recorded operations

The new operation gets a value of its own, and the block that is copied gets longer by one. Each
part of the invariant has a lemma, which says that a value is the new one or was there before. -/

/-- No edge is added to a block whose phis have their inputs: from here on only backedges could
lead to it, or jumps to blocks without live phis. -/
private theorem not_mem_successors (hA : Liveness.Analysed g s) (h : Copying g s fwd ρ n a)
    {i : OpIndex} {op op' : Operation} (hi : i ∈ (g.span n).toList) (hop : g.ops[i]? = some op)
    (himage : Image s a.copy? a.value? i op op') {j v : OpIndex} {opj : Operation}
    {b c : BlockIndex} {blk : Block} (hv : a.value? j = some v) (hj : j ∈ (g.span b).toList)
    (hopj : g.ops[j]? = some opj) (hphi : opj.isPhi = true) (hlive : s.isLive j = true)
    (hc : a.copy? b = some c) (hblk : g.blocks[b]? = some blk) (hloop : blk.isLoop = false) :
    c ∉ op'.successors := by
  have hlive : Liveness.isLivePhi g s j = true := by
    rw [Liveness.isLivePhi_eq hopj, hphi, hlive]
    rfl
  intro hmem
  have hisPhi := himage.successors_of_isPhi
  cases himage with
  -- control only comes out at blocks without live phis
  | @rewritten t c' ht hc' =>
    have hct : c = c' := by simpa [Operation.goto, Operation.successors] using hmem
    have hbt : b = t := h.copy_inj hc (hct ▸ hc')
    rw [Liveness.rewrite?] at ht
    split at ht
    · rename_i hjump
      have hdead := (hA.target_of_rewrite hi hop hjump ht).2.2 j (hbt ▸ hj)
      rw [hlive] at hdead
      cases hdead
    · cases ht
  | phi hphi' =>
    rw [hisPhi hphi'] at hmem
    cases hmem
  | renamed _ _ _ hren =>
    obtain ⟨t, ht, htc⟩ : ∃ t ∈ op.successors, a.copy? t = some c := by
      obtain ⟨k, hk, rfl⟩ := List.mem_iff_getElem.mp hmem
      have hlen := hren.successors.length_eq
      exact ⟨_, List.getElem_mem (hlen ▸ hk), hren.successors.get (hlen ▸ hk) hk⟩
    have hbt : b = t := h.copy_inj hc htc
    subst hbt
    have hterm := (hA.sound.ends hi hop (Operation.isTerminator_of_mem_successors ht)).1
    -- the block of the phi lies in front of `n`, so that this is an edge back, and the block a loop
    have harc : g.Arc n b := by rwa [Graph.Arc, Graph.successors_of_terminator hterm hop]
    obtain ⟨b', c', hj', hle, -⟩ := h.owner hv
    rw [hA.sound.span_disjoint hj' hj] at hle
    rw [Liveness.isLoop_of_arc hA.fit hA.ordered hblk harc hle] at hloop
    cases hloop

/-- What `op'` has to be to come next in the copy `c` of block `n` and to stand for operation `i`,
when the phis of `waiting` wait for their inputs from then on. -/
structure Next (g : Graph) (s : Liveness) (forwardPhis : Bool) (n c : BlockIndex) (i : OpIndex)
    (op op' : Operation) (waiting : Array (OpIndex × OpIndex)) (a : Assembler) : Prop where
  image : Image s a.copy? a.value? i op op'
  kept : ∀ e ∈ a.waiting.toList, e ∈ waiting.toList
  added : ∀ e ∈ waiting.toList, e ∈ a.waiting.toList ∨
    e = (a.output.opCount, i) ∧ op.isPhi = true ∧ ∃ blk, g.blocks[n]? = some blk ∧ blk.isLoop = true
  waits : op.isPhi = true → ∀ {blk}, g.blocks[n]? = some blk → blk.isLoop = true →
    (a.output.opCount, i) ∈ waiting.toList
  matched : op.isPhi = true → ∀ {blk}, g.blocks[n]? = some blk → blk.isLoop = false →
    PhiMatched g a.output a.copy? a.value? n c op op'
  distinct : forwardPhis = true → op.isPhi = true → ∀ {blk}, g.blocks[n]? = some blk →
    blk.isLoop = false → ∀ x ∈ op'.inputs, x ≠ noHandle → ∃ y ∈ op'.inputs, y ≠ x

theorem Next.of_not_phi {i : OpIndex} {op op' : Operation} {c : BlockIndex}
    (himage : Image s a.copy? a.value? i op op') (hphi : op.isPhi = false) :
    Next g s fwd n c i op op' a.waiting a where
  image := himage
  kept _ he := he
  added _ he := Or.inl he
  waits hphi' := absurd (hphi.symm.trans hphi') Bool.false_ne_true
  matched hphi' := absurd (hphi.symm.trans hphi') Bool.false_ne_true
  distinct _ hphi' := absurd (hphi.symm.trans hphi') Bool.false_ne_true

section

variable (h : Copying g s fwd ρ n a) {i : OpIndex} {op op' : Operation}
  (hop : g.ops[i]? = some op) (hnone : a.value? i = none) {c : BlockIndex}
  {waiting : Array (OpIndex × OpIndex)}

include h hop hnone

/-- The operation gets a value of its own, and no other one does. -/
theorem own_recorded (j : OpIndex) : (a.recorded c i op' waiting).own ρ j =
    if j = i then some a.output.opCount else a.own ρ j := by
  by_cases hj : j = i
  · rw [hj, if_pos rfl, Assembler.own_of_eq (h.root_of_none hnone),
      Assembler.value?_recorded (h.op_lt hop), if_pos rfl]
  · rw [if_neg hj, Assembler.own, Assembler.own, Assembler.value?_recorded (h.op_lt hop), if_neg hj]

/-- What has a value of its own then is the new operation, or had it before. -/
theorem own_recorded_cases (hg : g.Sound) (hi : i ∈ (g.span n).toList) {j v : OpIndex}
    {b : BlockIndex} {opj : Operation} (hv : (a.recorded c i op' waiting).own ρ j = some v)
    (hj : j ∈ (g.span b).toList) (hopj : g.ops[j]? = some opj) :
    (j = i ∧ v = a.output.opCount ∧ b = n ∧ opj = op) ∨
      a.own ρ j = some v ∧ (a.recorded c i op' waiting).output.ops[v]? = a.output.ops[v]? := by
  rw [h.own_recorded hop hnone] at hv
  split at hv
  · rename_i hji
    subst hji
    exact Or.inl ⟨rfl, (Option.some.inj hv).symm, hg.span_disjoint hj hi,
      Option.some.inj (hopj.symm.trans hop)⟩
  · exact Or.inr ⟨hv, Graph.appended_op_of_lt (h.value_lt (Assembler.own_eq_some.mp hv).2)⟩

private theorem value_root_recorded (j : OpIndex) :
    (a.recorded c i op' waiting).value? (ρ j) = (a.recorded c i op' waiting).value? j := by
  by_cases hj : j = i
  · rw [hj, h.root_of_none hnone]
  · rw [Assembler.value?_recorded (h.op_lt hop), Assembler.value?_recorded (h.op_lt hop), if_neg hj,
      if_neg (h.root_ne hnone hj), h.value_root]

private theorem filterMap_recorded_of_notMem {l : List OpIndex} (hl : i ∉ l) :
    l.filterMap ((a.recorded c i op' waiting).own ρ) = l.filterMap (a.own ρ) := by
  refine List.filterMap_congr fun j hj ↦ ?_
  rw [h.own_recorded hop hnone, if_neg]
  rintro rfl
  exact hl hj

private theorem span_recorded (hg : g.Sound) (hc : a.copy? n = some c) {pre post : List OpIndex}
    (hspan : (g.span n).toList = pre ++ i :: post) (hfresh : ∀ j ∈ i :: post, a.value? j = none)
    (hbound : a.output.bound = some c) {b d : BlockIndex} (hd : a.copy? b = some d) :
    ((a.recorded c i op' waiting).output.span d).toList =
      (g.span b).toList.filterMap ((a.recorded c i op' waiting).own ρ) := by
  have hi : i ∈ (g.span n).toList := hspan ▸ List.mem_append_right _ List.mem_cons_self
  by_cases hdc : d = c
  · subst hdc
    have hbn := h.copy_inj hd hc
    subst hbn
    have hnd := (g.span b).nodup_toList
    rw [hspan] at hnd
    have hpre : i ∉ pre := fun hmem ↦
      List.disjoint_of_nodup_append hnd hmem List.mem_cons_self
    have hpost : i ∉ post := (List.nodup_cons.mp (List.nodup_append.mp hnd).2.1).1
    have hrest : ∀ j ∈ i :: post, a.own ρ j = none := fun j hj ↦ by
      rw [Assembler.own, hfresh j hj, ite_self]
    have happ : ((a.recorded d i op' waiting).output.span d).toList =
        (a.output.span d).toList ++ [a.output.opCount] :=
      Graph.appended_span_toList_self op' h.sound hbound
    rw [happ, h.span hd, hspan, List.filterMap_append, List.filterMap_append,
      List.filterMap_eq_nil_iff.mpr hrest, List.append_nil,
      h.filterMap_recorded_of_notMem hop hnone hpre, List.filterMap_cons,
      h.own_recorded hop hnone, if_pos rfl, h.filterMap_recorded_of_notMem hop hnone hpost,
      List.filterMap_eq_nil_iff.mpr fun j hj ↦ hrest j (List.mem_cons_of_mem i hj)]
  · have happ : (a.recorded c i op' waiting).output.span d = a.output.span d :=
      Graph.appended_span_of_ne hdc
    rw [happ, h.span hd, h.filterMap_recorded_of_notMem hop hnone]
    intro hmem
    have hbn := hg.span_disjoint hmem hi
    subst hbn
    exact hdc (Option.some.inj (hd.symm.trans hc))

omit hnone in
/-- A phi that has its inputs keeps its predecessors. -/
theorem predecessors_recorded (hA : Liveness.Analysed g s) (hi : i ∈ (g.span n).toList)
    (himage : Image s a.copy? a.value? i op op') {j v : OpIndex} {opj : Operation}
    {b d : BlockIndex} {blk : Block} (hv : a.value? j = some v) (hj : j ∈ (g.span b).toList)
    (hopj : g.ops[j]? = some opj) (hphi : opj.isPhi = true) (hlive : s.isLive j = true)
    (hd : a.copy? b = some d) (hblk : g.blocks[b]? = some blk) (hloop : blk.isLoop = false) :
    (a.recorded c i op' waiting).output.predecessors d = a.output.predecessors d :=
  Graph.appended_predecessors_of_notMem
    (h.not_mem_successors hA hi hop himage hv hj hopj hphi hlive hd hblk hloop)

private theorem image_recorded (hg : g.Sound) (hi : i ∈ (g.span n).toList)
    (himage : Image s a.copy? a.value? i op op') {j v : OpIndex} {opj : Operation}
    (hv : (a.recorded c i op' waiting).own ρ j = some v) (hopj : g.ops[j]? = some opj) :
    ∃ opj', (a.recorded c i op' waiting).output.ops[v]? = some opj' ∧
      Image s a.copy? (a.recorded c i op' waiting).value? j opj opj' := by
  have hmono : ∀ {k w}, a.value? k = some w → (a.recorded c i op' waiting).value? k = some w :=
    Assembler.value?_recorded_mono (h.op_lt hop) hnone
  obtain ⟨b, hj⟩ := hg.exists_owner (Graph.lt_opCount hopj)
  rcases h.own_recorded_cases hop hnone hg hi hv hj hopj with ⟨rfl, rfl, -, rfl⟩ | ⟨hv, hsame⟩
  · exact ⟨op', Graph.appended_op_self, himage.mono (fun hc ↦ hc) hmono⟩
  · obtain ⟨opj', hopj', him⟩ := h.image hv hopj
    exact ⟨opj', hsame.trans hopj', him.mono (fun hc ↦ hc) hmono⟩

private theorem phi_recorded (hA : Liveness.Analysed g s) (hi : i ∈ (g.span n).toList)
    (hc : a.copy? n = some c) (hnext : Next g s fwd n c i op op' waiting a) {j v : OpIndex}
    {opj opj' : Operation} {b d : BlockIndex} {blk : Block}
    (hv : (a.recorded c i op' waiting).own ρ j = some v) (hj : j ∈ (g.span b).toList)
    (hopj : g.ops[j]? = some opj) (hphi : opj.isPhi = true)
    (hopj' : (a.recorded c i op' waiting).output.ops[v]? = some opj') (hd : a.copy? b = some d)
    (hblk : g.blocks[b]? = some blk) (hloop : blk.isLoop = false) :
    PhiMatched g (a.recorded c i op' waiting).output a.copy?
      (a.recorded c i op' waiting).value? b d opj opj' := by
  have hmono : ∀ {k w}, a.value? k = some w → (a.recorded c i op' waiting).value? k = some w :=
    Assembler.value?_recorded_mono (h.op_lt hop) hnone
  rcases h.own_recorded_cases hop hnone hA.sound hi hv hj hopj
    with ⟨rfl, rfl, rfl, rfl⟩ | ⟨hv, hsame⟩
  · cases Graph.appended_op_self.symm.trans hopj'
    cases hc.symm.trans hd
    refine (hnext.matched hphi hblk hloop).mono ?_ (fun hc ↦ hc) hmono
    refine Graph.appended_predecessors_of_notMem ?_
    rw [hnext.image.successors_of_isPhi hphi]
    exact List.not_mem_nil
  · rw [hsame] at hopj'
    obtain ⟨_, _, him⟩ := h.image hv hopj
    refine (h.phi hv hj hopj hphi hopj' hd hblk hloop).mono ?_ (fun hc ↦ hc) hmono
    exact h.predecessors_recorded hop hA hi hnext.image (Assembler.own_eq_some.mp hv).2 hj hopj
      hphi (him.isLive_of_isPhi hphi) hd hblk hloop

private theorem of_waiting_recorded (hi : i ∈ (g.span n).toList)
    (hnext : Next g s fwd n c i op op' waiting a) {j v : OpIndex} (hmem : (v, j) ∈ waiting.toList) :
    (a.recorded c i op' waiting).own ρ j = some v ∧
      (∃ opj, g.ops[j]? = some opj ∧ opj.isPhi = true) ∧
      ∃ b blk, j ∈ (g.span b).toList ∧ g.blocks[b]? = some blk ∧ blk.isLoop = true := by
  rcases hnext.added _ hmem with hmem | ⟨heq, hphi, blk, hblk, hloop⟩
  · refine (h.of_waiting hmem).imp_left fun hv ↦ ?_
    rw [Assembler.own_eq_some] at hv ⊢
    exact hv.imp_right (Assembler.value?_recorded_mono (h.op_lt hop) hnone)
  · cases heq
    exact ⟨(h.own_recorded hop hnone i).trans (if_pos rfl), ⟨op, hop, hphi⟩, n, blk, hi, hblk,
      hloop⟩

/-- An operation is copied: its image is the next operation of the copied block, and stands for it
from now on. -/
theorem record (hA : Liveness.Analysed g s) (hc : a.copy? n = some c) {pre post : List OpIndex}
    (hspan : (g.span n).toList = pre ++ i :: post) (hfresh : ∀ j ∈ i :: post, a.value? j = none)
    (hbound : a.output.bound = some c)
    (hadd : a.output.addOperation op' = .ok (a.output.appended c op'))
    (hnext : Next g s fwd n c i op op' waiting a) :
    Copying g s fwd ρ n (a.recorded c i op' waiting) ∧ a.Grows (a.recorded c i op' waiting) := by
  have hg := hA.sound
  have hi : i ∈ (g.span n).toList := hspan ▸ List.mem_append_right _ List.mem_cons_self
  have hmono : ∀ {j v}, a.value? j = some v → (a.recorded c i op' waiting).value? j = some v :=
    Assembler.value?_recorded_mono (h.op_lt hop) hnone
  refine ⟨{
    source_eq := h.source_eq
    opMap_size := Array.size_setIfInBounds.trans h.opMap_size
    blockMap_size := h.blockMap_size
    sound := h.sound.addOperation hadd
    origin_size := h.origin_size.trans Graph.appended_blockCount.symm
    copy_iff := h.copy_iff
    plain := h.plain
    root := h.root
    value_root := h.value_root_recorded hop hnone
    span := h.span_recorded hop hnone hg hc hspan hfresh hbound
    owner := fun {j v} hv ↦ by
      rw [Assembler.value?_recorded (h.op_lt hop)] at hv
      split at hv
      · rename_i hj
        exact ⟨n, c, hj ▸ hi, Nat.le_refl n, hc⟩
      · exact h.owner hv
    image := fun hv hopj ↦ h.image_recorded hop hnone hg hi hnext.image hv hopj
    phi := fun hv hj hopj hphi hopj' hd hblk hloop ↦
      h.phi_recorded hop hnone hA hi hc hnext hv hj hopj hphi hopj' hd hblk hloop
    -- from here on, the value is the new one, or one of before that the new operation leaves alone
    distinct := fun hf {j v opj opj' b blk} hv hj hopj hphi hopj' hblk hloop ↦ by
      rcases h.own_recorded_cases hop hnone hg hi hv hj hopj
        with ⟨rfl, rfl, rfl, rfl⟩ | ⟨hv, hsame⟩
      · cases Graph.appended_op_self.symm.trans hopj'
        exact hnext.distinct hf hphi hblk hloop
      · rw [hsame] at hopj'
        exact h.distinct hf hv hj hopj hphi hopj' hblk hloop
    waiting := fun {j v opj b blk} hv hj hopj hphi hblk hloop ↦ by
      rcases h.own_recorded_cases hop hnone hg hi hv hj hopj with ⟨rfl, rfl, rfl, rfl⟩ | ⟨hv, -⟩
      · exact hnext.waits hphi hblk hloop
      · exact hnext.kept _ (h.waiting hv hj hopj hphi hblk hloop)
    of_waiting := h.of_waiting_recorded hop hnone hi hnext
    forwarded := fun hne ↦ by
      obtain ⟨b, d, blk, opj, v, inputs, hf⟩ := h.forwarded hne
      exact ⟨b, d, blk, opj, v, inputs, hf.mono
        (h.predecessors_recorded hop hA hi hnext.image hf.value hf.mem hf.op_eq hf.isPhi hf.isLive
          hf.copy hf.block hf.isLoop) (fun hc ↦ hc) hmono⟩ },
    ⟨fun hc ↦ hc, hmono, rfl, fun {d} hd ↦ ?_⟩⟩
  rw [(Graph.appended_bound_eq_some.mp hd).2]
  exact hbound

end

/-! ## Forwarded phis

A forwarded phi shares the value of its inputs. No operation gets a value of its own, so that the
copy stays as it is, and only the map from values to their owners changes. -/

private theorem own_forward (h : Copying g s fwd ρ n a) {i j w : OpIndex} (hi : i < a.opMap.size)
    (hnone : a.value? i = none) (hne : ρ j ≠ i) :
    (a.withValue i (some w)).own (Function.update ρ i (ρ j)) = a.own ρ := by
  funext k
  by_cases hk : k = i
  · subst hk
    rw [Assembler.own, Function.update_self, if_neg hne, Assembler.own_of_eq (h.root_of_none hnone),
      hnone]
  · rw [Assembler.own, Function.update_of_ne hk, Assembler.value?_withValue hi, if_neg hk,
      Assembler.own]

/-- A phi whose inputs all have one value is forwarded: it shares that value with the operation that
has it of its own. -/
private theorem forward (hf : fwd = true) (h : Copying g s fwd ρ n a) {i w : OpIndex}
    {c : BlockIndex} {blk : Block} {op : Operation} {inputs : List OpIndex}
    (hi : i ∈ (g.span n).toList) (hfresh : a.value? i = none) {j : OpIndex}
    (hj : a.value? j = some w)
    (hphi : ForwardedPhi g s (a.withValue i (some w)) i n c blk op w inputs) :
    Copying g s fwd (Function.update ρ i (ρ j)) n (a.withValue i (some w)) ∧
      a.Grows (a.withValue i (some w)) := by
  have hsize := h.op_lt hphi.op_eq
  have hvalue := Assembler.value?_withValue (v := some w) hsize
  have hne : ρ j ≠ i := by
    intro heq
    rw [← h.value_root, heq, hfresh] at hj
    cases hj
  have hmono : ∀ {k v}, a.value? k = some v → (a.withValue i (some w)).value? k = some v :=
    Assembler.value?_withValue_mono hsize hfresh
  -- the phi gets no value of its own, so that what is said of these holds as before
  have hown := h.own_forward (w := w) hsize hfresh hne
  exact ⟨{
    source_eq := h.source_eq
    opMap_size := Array.size_setIfInBounds.trans h.opMap_size
    blockMap_size := h.blockMap_size
    sound := h.sound
    origin_size := h.origin_size
    copy_iff := h.copy_iff
    plain := fun hplain ↦ by rw [hf] at hplain; cases hplain
    root := fun k ↦ by
      by_cases hk : k = i
      · rw [hk, Function.update_self, Function.update_of_ne hne, h.root]
      · rw [Function.update_of_ne hk, Function.update_of_ne (h.root_ne hfresh hk), h.root]
    value_root := fun k ↦ by
      by_cases hk : k = i
      · rw [hk, Function.update_self, hvalue, hvalue, if_neg hne, if_pos rfl, h.value_root, hj]
      · rw [Function.update_of_ne hk, hvalue, hvalue, if_neg (h.root_ne hfresh hk), if_neg hk,
          h.value_root]
    span := by rw [hown]; exact h.span
    owner := fun {k v} hv ↦ by
      rw [hvalue] at hv
      split at hv
      · rename_i hk
        exact ⟨n, c, hk ▸ hi, Nat.le_refl n, hphi.copy⟩
      · exact h.owner hv
    image := by
      rw [hown]
      intro k v opk hv hopk
      obtain ⟨op', hop', him⟩ := h.image hv hopk
      exact ⟨op', hop', him.mono (fun hc ↦ hc) hmono⟩
    phi := by
      rw [hown]
      exact fun hv hk hopk hphik hop' hc hblk hloop ↦
        (h.phi hv hk hopk hphik hop' hc hblk hloop).mono rfl (fun hc ↦ hc) hmono
    distinct := by rw [hown]; exact h.distinct
    waiting := by rw [hown]; exact h.waiting
    of_waiting := by rw [hown]; exact h.of_waiting
    forwarded := fun {k} hk ↦ by
      by_cases hki : k = i
      · exact ⟨n, c, blk, op, w, inputs, hki ▸ hphi⟩
      · rw [Function.update_of_ne hki] at hk
        obtain ⟨b, d, blk', opk, v, inputs', hfwd⟩ := h.forwarded hk
        exact ⟨b, d, blk', opk, v, inputs', hfwd.mono rfl (fun hc ↦ hc) hmono⟩ },
    fun hc ↦ hc, hmono, rfl, fun hc ↦ hc⟩

/-! ## The inputs of a phi

The inputs of a phi are taken from the predecessors that the copied block has at this point, which
outside of loops are all it will get. -/

theorem isLoop_of_phiInputs (h : Copying g s fwd ρ n a) {i : OpIndex} {b : BlockIndex} {blk : Block}
    (hi : g.owners[i]? = some b) (hblk : g.blocks[b]? = some blk)
    {inputs : List (Option OpIndex)} {complete : Bool}
    (hy : Yields (Build.phiInputs i) a (inputs, complete) a') :
    complete = !blk.isLoop := by
  obtain ⟨-, b', op, blk', hb', -, hblk', hcomplete, -⟩ := Build.yields_phiInputs hy
  rw [h.source_eq] at hb' hblk'
  cases hi.symm.trans hb'
  cases hblk.symm.trans hblk'
  exact hcomplete

theorem phiMatched (h : Copying g s fwd ρ n a) {i : OpIndex} {op : Operation} {b c : BlockIndex}
    (hi : g.owners[i]? = some b) (hop : g.ops[i]? = some op) (hc : a.copy? b = some c)
    {inputs : List (Option OpIndex)} {complete : Bool}
    (hy : Yields (Build.phiInputs i) a (inputs, complete) a') :
    PhiMatched g a.output a.copy? a.value? b c op
      { op with inputs := inputs.map (·.getD noHandle) } where
  input {q p'} hq := by
    obtain ⟨-, b', op₀, blk, hb', hop₀, -, -, -, hin⟩ := Build.yields_phiInputs hy
    rw [h.source_eq] at hb' hop₀
    cases hi.symm.trans hb'
    cases hop.symm.trans hop₀
    rw [hc, Option.getD_some, h.source_eq] at hin
    obtain ⟨p, k, j, hp, hk, hj, hv⟩ := hin hq
    rw [Build.countCopies_eq h.paired (h.copy_iff.mpr hp)] at hk
    refine ⟨p, k, j, (a.value? j).getD noHandle, h.copy_iff.mpr hp, hk, hj, ?_, ?_⟩
    · rw [List.getElem?_map, hv, Option.map_some]
    · cases a.value? j with
      | none => exact Or.inl rfl
      | some w => exact Or.inr rfl

/-! ## One operation

`Placed` says what has become of an operation once it was copied, whichever way was taken. -/

/-- What copying operation `i` of block `n` comes to: the copy goes on as before, with something in
the place of the operation if it is to be kept. -/
structure Placed (g : Graph) (s : Liveness) (forwardPhis : Bool) (n : BlockIndex) (a : Assembler)
    (i : OpIndex) (op : Operation) (a' : Assembler) : Prop where
  copying : ∃ ρ, Copying g s forwardPhis ρ n a'
  grows : a.Grows a'
  value_eq : ∀ j, j ≠ i → a'.value? j = a.value? j
  kept : s.Kept i op → (a'.value? i).isSome = true

theorem placed_of_value {i w : OpIndex} {op : Operation} {ρ' : OpIndex → OpIndex}
    (h : Copying g s fwd ρ' n a') (hgrows : a.Grows a')
    (hvalue : ∀ j, a'.value? j = if j = i then some w else a.value? j) :
    Placed g s fwd n a i op a' where
  copying := ⟨ρ', h⟩
  grows := hgrows
  value_eq j hj := by rw [hvalue, if_neg hj]
  kept _ := by rw [hvalue, if_pos rfl, Option.isSome_some]

section

variable (hA : Liveness.Analysed g s) (h : Copying g s fwd ρ n a) {c : BlockIndex}
  (hc : a.copy? n = some c) (hbound : ∀ {d}, a.output.bound = some d → d = c)
  {pre post : List OpIndex} {i : OpIndex} (hspan : (g.span n).toList = pre ++ i :: post)
  (hfresh : ∀ j ∈ i :: post, a.value? j = none) {op : Operation} (hop : g.ops[i]? = some op)

include hA h hc hbound hspan hfresh hop

private theorem placed_rewritten {t d : BlockIndex} {w : OpIndex} {a₁ a₂ : Assembler}
    (ht : s.rewrite? i op = some t) (hmap : Yields (Build.mapBlock t) a d a₁)
    (hemit : Yields (Build.emit (.goto d)) a₁ w a₂) :
    Placed g s fwd n a i op (a₂.withValue i (some w)) := by
  obtain ⟨h₁, hgrows, hd, hvalue⟩ := h.mapBlock hA.sound hmap
  obtain ⟨c', hb, hadd, rfl, rfl⟩ := Build.yields_emit hemit
  cases hbound (hgrows.bound hb)
  rw [← hvalue] at hfresh
  have hphi : op.isPhi = false := by
    by_contra hphi
    have hjump : op.isJump = true := Liveness.isJump_of_rewrite (by rw [ht]; rfl)
    rw [(Liveness.isRequired_of_isPhi (Bool.not_eq_false _ ▸ hphi)).2] at hjump
    cases hjump
  obtain ⟨h', hgrows'⟩ := h₁.record hop (hfresh i List.mem_cons_self) hA (hgrows.copy hc) hspan
    hfresh hb hadd (.of_not_phi (.rewritten ht hd) hphi)
  exact placed_of_value h' (hgrows.trans hgrows') fun j ↦
    (Assembler.value?_recorded (h₁.op_lt hop) j).trans (by rw [hvalue])

omit hbound in
private theorem placed_forwarded (hf : fwd = true) (hphi : op.isPhi = true)
    (hlive : s.isLive i = true) {inputs : List (Option OpIndex)} {w : OpIndex}
    (hin : Yields (Build.phiInputs i) a (inputs, true) a) (hne : inputs ≠ [])
    (hall : ∀ x ∈ inputs, x = some w) : Placed g s fwd n a i op (a.withValue i (some w)) := by
  have hi : i ∈ (g.span n).toList := hspan ▸ List.mem_append_right _ List.mem_cons_self
  have hown := (hA.sound.mem_span_iff i n).mp hi
  have hnone := hfresh i List.mem_cons_self
  have hsize := h.op_lt hop
  have hvalue := Assembler.value?_withValue (v := some w) hsize
  obtain ⟨x, hx⟩ := List.exists_mem_of_ne_nil _ hne
  obtain ⟨j, rfl⟩ := Build.exists_value_of_phiInputs hin hx
  obtain ⟨blk, hblk⟩ := Graph.exists_block (Graph.lt_blockCount_of_mem_span hi)
  have hforwarded : ForwardedPhi g s (a.withValue i (some w)) i n c blk op w
      (inputs.map (·.getD noHandle)) := {
    mem := hi
    copy := hc
    block := hblk
    isLoop := by simpa using h.isLoop_of_phiInputs hown hblk hin
    op_eq := hop
    isPhi := hphi
    isLive := hlive
    value := (hvalue i).trans (if_pos rfl)
    inputs_eq := fun v hv ↦ by
      obtain ⟨x, hx, rfl⟩ := List.mem_map.mp hv
      rw [hall x hx, Option.getD_some]
    matched := (h.phiMatched hown hop hc hin).mono rfl (fun hc ↦ hc)
      (Assembler.value?_withValue_mono hsize hnone) }
  obtain ⟨h', hgrows⟩ := h.forward hf hi hnone (hall _ hx) hforwarded
  exact placed_of_value h' hgrows hvalue

private theorem placed_phi (hphi : op.isPhi = true) (hlive : s.isLive i = true)
    {inputs : List (Option OpIndex)} {complete : Bool} {w : OpIndex} {a₁ : Assembler}
    (hin : Yields (Build.phiInputs i) a (inputs, complete) a)
    (hemit : Yields (Build.emit { op with inputs := inputs.map (·.getD noHandle) }) a w a₁)
    (hkeep : fwd = true → ∀ {inputs w}, op.isPhi = true →
      Yields (Build.phiInputs i) a (inputs, true) a → inputs ≠ [] → ¬∀ x ∈ inputs, x = some w) :
    Placed g s fwd n a i op ((if complete then a₁ else
      { a₁ with waiting := a₁.waiting.push (w, i) }).withValue i (some w)) := by
  have hi : i ∈ (g.span n).toList := hspan ▸ List.mem_append_right _ List.mem_cons_self
  have hown := (hA.sound.mem_span_iff i n).mp hi
  obtain ⟨blk, hblk⟩ := Graph.exists_block (Graph.lt_blockCount_of_mem_span hi)
  have hcomplete := h.isLoop_of_phiInputs hown hblk hin
  obtain ⟨c', hb, hadd, rfl, rfl⟩ := Build.yields_emit hemit
  cases hbound hb
  have himage : Image s a.copy? a.value? i op
      { op with inputs := inputs.map (·.getD noHandle) } := .phi hphi hlive rfl
  cases complete with
  | true =>
    have hplain : ∀ {blk'}, g.blocks[n]? = some blk' → blk'.isLoop ≠ true := fun hblk' ↦ by
      cases hblk.symm.trans hblk'
      simpa using hcomplete
    have hnext : Next g s fwd n c i op { op with inputs := inputs.map (·.getD noHandle) }
        a.waiting a := {
      image := himage
      kept := fun e he ↦ he
      added := fun e he ↦ Or.inl he
      waits := fun _ _ hblk' hloop ↦ absurd hloop (hplain hblk')
      matched := fun _ _ _ _ ↦ h.phiMatched hown hop hc hin
      distinct := fun hf _ _ _ _ ↦ exists_ne_of_getD fun hne ↦ hkeep hf hphi hin hne }
    obtain ⟨h', hgrows⟩ :=
      h.record hop (hfresh i List.mem_cons_self) hA hc hspan hfresh hb hadd hnext
    exact placed_of_value h' hgrows (Assembler.value?_recorded (h.op_lt hop))
  | false =>
    have hloop : blk.isLoop = true := by simpa using hcomplete
    have hnot : ∀ {blk'}, g.blocks[n]? = some blk' → blk'.isLoop ≠ false := fun hblk' ↦ by
      cases hblk.symm.trans hblk'
      simpa using hcomplete
    have hnext : Next g s fwd n c i op { op with inputs := inputs.map (·.getD noHandle) }
        (a.waiting.push (a.output.opCount, i)) a := {
      image := himage
      kept := fun e he ↦ by
        rw [Array.toList_push]
        exact List.mem_append_left _ he
      added := fun e he ↦ by
        rw [Array.toList_push, List.mem_append, List.mem_singleton] at he
        exact he.imp_right fun heq ↦ ⟨heq, hphi, blk, hblk, hloop⟩
      waits := fun _ _ _ _ ↦ by simp
      matched := fun _ _ hblk' hplain ↦ absurd hplain (hnot hblk')
      distinct := fun _ _ _ hblk' hplain ↦ absurd hplain (hnot hblk') }
    obtain ⟨h', hgrows⟩ :=
      h.record hop (hfresh i List.mem_cons_self) hA hc hspan hfresh hb hadd hnext
    have hplaced : Placed g s fwd n a i op (a.recorded c i
        { op with inputs := inputs.map (·.getD noHandle) }
        (a.waiting.push (a.output.opCount, i))) :=
      placed_of_value h' hgrows (Assembler.value?_recorded (h.op_lt hop))
    exact hplaced

private theorem placed_renamed (hrewrite : s.rewrite? i op = none) (hphi : op.isPhi = false)
    (hlive : s.isLive i = true) {op' : Operation} {w : OpIndex} {a₁ a₂ : Assembler}
    (hren : Yields (op.rename Build.mapBlock Build.mapInput) a op' a₁)
    (hemit : Yields (Build.emit op') a₁ w a₂) :
    Placed g s fwd n a i op (a₂.withValue i (some w)) := by
  obtain ⟨h₁, hgrows, hvalue, hren⟩ := h.rename hA.sound hren
  obtain ⟨c', hb, hadd, rfl, rfl⟩ := Build.yields_emit hemit
  cases hbound (hgrows.bound hb)
  rw [← hvalue] at hfresh
  obtain ⟨h', hgrows'⟩ := h₁.record hop (hfresh i List.mem_cons_self) hA (hgrows.copy hc) hspan
    hfresh hb hadd (.of_not_phi (.renamed hrewrite hlive hphi hren) hphi)
  exact placed_of_value h' (hgrows.trans hgrows') fun j ↦
    (Assembler.value?_recorded (h₁.op_lt hop) j).trans (by rw [hvalue])

/-- One operation, in front of those of the block that have no values yet. -/
theorem copyOp {u : PUnit} (hy : Yields (Build.copyOp (Graph.eliminators s fwd) i) a u a') :
    Placed g s fwd n a i op a' := by
  obtain ⟨v, a₂, hreduce, rfl⟩ := Build.yields_copyOp hy
  have hop₀ : a.source.ops[i]? = some op := by rw [h.source_eq, hop]
  rcases Build.yields_dropDead hop₀ hreduce with
    ⟨t, d, w, a₁, ht, hmap, hemit, rfl⟩ | ⟨hrewrite, ⟨hlive, hlast⟩ | ⟨hdead, -, rfl, rfl⟩⟩
  · exact placed_rewritten hA h hc hbound hspan hfresh hop ht hmap hemit
  · have hlive : s.isLive i = true := Liveness.isLive_eq_true.mpr hlive
    rcases Build.yields_reduceLive hop₀ hlast with
      ⟨hf, hphi, inputs, w, hin, hne, hall, rfl, rfl⟩ | ⟨hcopy, hkeep⟩
    · exact placed_forwarded hA h hc hspan hfresh hop hf hphi hlive hin hne hall
    rcases Build.yields_copyOperation hop₀ hcopy with
      ⟨hphi, inputs, complete, w, a₁, hin, hemit, rfl, rfl⟩ | ⟨hphi, op', w, a₁, hren, hemit, rfl⟩
    · exact placed_phi hA h hc hbound hspan hfresh hop hphi hlive hin hemit hkeep
    · exact placed_renamed hA h hc hbound hspan hfresh hop hrewrite hphi hlive hren hemit
  · -- nothing stands for a dead operation, as before
    rw [Assembler.withValue_none (h.op_lt hop) (hfresh i List.mem_cons_self)]
    refine ⟨⟨ρ, h⟩, .refl a₂, fun _ _ ↦ rfl, fun hkept ↦ ?_⟩
    rcases hkept with hlive | hsome
    · rw [Liveness.isLive_eq_true, hdead] at hlive
      cases hlive
    · rw [Liveness.rewrite?, hrewrite] at hsome
      cases hsome

end

end Copying

end Flowgraph
