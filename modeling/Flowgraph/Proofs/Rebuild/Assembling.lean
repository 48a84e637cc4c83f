import Flowgraph.Proofs.Rebuild.Recording

/-!
# Copying block by block

The blocks of a graph are copied one after the other, those that nothing refers to are left out, and
in the end the phis of loops get the inputs that they waited for. `Assembled` says what there is
when the blocks below `n` are done, and `PhiComplete` that a phi has its final inputs.
-/

namespace Flowgraph

variable {g : Graph} {s : Liveness} {fwd : Bool} {ρ : OpIndex → OpIndex} {n : BlockIndex}
  {a a' : Assembler}

/-! ## Blocks

A block is copied if something refers to it. Its copy is bound, takes the operations one after the
other, and counts as filled from then on. -/

namespace Copying

theorem mono (h : Copying g s fwd ρ n a) {m : BlockIndex} (hle : n ≤ m) : Copying g s fwd ρ m a :=
  { h with
    owner := fun hv ↦ by
      obtain ⟨b, c, hi, hb, hc⟩ := h.owner hv
      exact ⟨b, c, hi, Nat.le_trans hb hle, hc⟩ }

private theorem copyOps (hA : Liveness.Analysed g s) {c : BlockIndex} {u : PUnit} :
    ∀ {rest : List OpIndex} (pre : List OpIndex) {ρ : OpIndex → OpIndex} {a : Assembler},
      Copying g s fwd ρ n a → a.copy? n = some c →
      (∀ {d}, a.output.bound = some d → d = c) → (g.span n).toList = pre ++ rest →
      (∀ j ∈ rest, a.value? j = none) →
      Yields (rest.forM (Build.copyOp (Graph.eliminators s fwd))) a u a' →
      (∃ ρ', Copying g s fwd ρ' n a') ∧ a.Grows a' ∧ ∀ {j op}, j ∈ rest → g.ops[j]? = some op →
        s.Kept j op → (a'.value? j).isSome = true := by
  intro rest
  induction rest with
  | nil =>
    intro pre ρ a h _ _ _ _ hy
    rw [yields_forM_nil] at hy
    rw [hy]
    exact ⟨⟨ρ, h⟩, .refl a, nofun⟩
  | cons i post ih =>
    intro pre ρ a h hc hbound hspan hfresh hy
    obtain ⟨a₁, hi, hpost⟩ := yields_forM_cons.mp hy
    have hmem : i ∈ (g.span n).toList := hspan ▸ List.mem_append_right _ List.mem_cons_self
    obtain ⟨op, hop⟩ := Graph.exists_op (hA.sound.lt_of_mem_span hmem)
    obtain ⟨⟨ρ₁, h₁⟩, hgrows₁, hothers, hkept⟩ := h.copyOp hA hc hbound hspan hfresh hop hi
    have hnd := (g.span n).nodup_toList
    rw [hspan] at hnd
    -- an operation stands in the block once, so that the rest still has no values
    have hne : i ∉ post := (List.nodup_cons.mp (List.nodup_append.mp hnd).2.1).1
    obtain ⟨h', hgrows, hpost'⟩ := ih _ h₁ (hgrows₁.copy hc) (fun hd ↦ hbound (hgrows₁.bound hd))
      (hspan.trans (List.append_cons _ _ _)) (fun j hj ↦ by
        rw [hothers j fun heq ↦ hne (heq ▸ hj)]
        exact hfresh j (List.mem_cons_of_mem i hj)) hpost
    refine ⟨h', hgrows₁.trans hgrows, fun {j op'} hj hop' hk ↦ ?_⟩
    rcases List.mem_cons.mp hj with rfl | hj
    · cases hop.symm.trans hop'
      obtain ⟨v, hv⟩ := Option.isSome_iff_exists.mp (hkept hk)
      rw [hgrows.value hv, Option.isSome_some]
    · exact hpost' hj hop' hk

end Copying

/-- The blocks below `n` are copied as far as something refers to them. -/
structure Assembled (g : Graph) (s : Liveness) (forwardPhis : Bool) (ρ : OpIndex → OpIndex)
    (n : BlockIndex) (a : Assembler) : Prop where
  copying : Copying g s forwardPhis ρ n a
  bound_eq : a.output.bound = none
  below : ∀ {i v : OpIndex} {b : BlockIndex}, a.value? i = some v → i ∈ (g.span b).toList → b < n
  filled : ∀ c ∈ a.filled.toList, ∃ b, a.copy? b = some c ∧ ∀ {i : OpIndex} {op : Operation},
    i ∈ (g.span b).toList → g.ops[i]? = some op → s.Kept i op → (a.value? i).isSome = true
  entry : a.copy? 0 = some 0
  first : a.filled.toList.head? = if n = 0 then none else some 0

private theorem copying_start (g : Graph) (s : Liveness) (fwd : Bool) :
    Copying g s fwd id 0 (.start g) where
  source_eq := rfl
  opMap_size := Array.size_replicate
  blockMap_size := Array.size_replicate
  sound := Graph.sound_empty g.name
  origin_size := rfl
  copy_iff := fun {b c} ↦ by
    rw [Assembler.copy?_start]
    simp [Assembler.start]
  plain := fun _ ↦ rfl
  root := fun _ ↦ rfl
  value_root := fun _ ↦ rfl
  span := fun hc ↦ by simp at hc
  owner := fun hv ↦ by simp at hv
  image := fun hv ↦ by simp [Assembler.own_id] at hv
  phi := fun hv ↦ by simp [Assembler.own_id] at hv
  distinct := fun _ {_ _ _ _ _ _} hv ↦ by simp [Assembler.own_id] at hv
  waiting := fun hv ↦ by simp [Assembler.own_id] at hv
  of_waiting := fun hmem ↦ by simp [Assembler.start] at hmem
  forwarded := fun hne ↦ absurd rfl hne

private theorem assembled_zero (hg : g.Sound) {c : BlockIndex}
    (hy : Yields (Build.mapBlock 0) (.start g) c a) : Assembled g s fwd id 0 a := by
  obtain ⟨h, hgrows, hc, hvalue⟩ := (copying_start g s fwd).mapBlock hg hy
  have hzero : c = 0 := by
    rcases Build.yields_mapBlock hy with ⟨hc, -⟩ | ⟨-, -, hc, -⟩
    · rw [Assembler.copy?_start] at hc
      cases hc
    · exact hc
  refine ⟨h, ?_, fun {i v b} hv ↦ ?_, fun d hd ↦ ?_, hzero ▸ hc, by rw [hgrows.filled_eq]; rfl⟩
  · rw [Option.eq_none_iff_forall_ne_some]
    intro d hd
    cases hgrows.bound hd
  · rw [hvalue, Assembler.value?_start] at hv
    cases hv
  · rw [hgrows.filled_eq] at hd
    cases hd

private theorem Copying.bind (h : Copying g s fwd ρ n a) {c : BlockIndex} {output : Graph}
    (hbind : a.output.bind c = .ok output) :
    Copying g s fwd ρ n { a with output, filled := a.filled.push c, current := some n } := by
  have hsound := h.sound.bind hbind
  obtain ⟨-, -, rfl⟩ := Graph.bind_eq_ok hbind
  exact {
    source_eq := h.source_eq
    opMap_size := h.opMap_size
    blockMap_size := h.blockMap_size
    sound := hsound
    origin_size := h.origin_size
    copy_iff := h.copy_iff
    plain := h.plain
    root := h.root
    value_root := h.value_root
    span := h.span
    owner := h.owner
    image := h.image
    phi := fun hv hi hop hphi hop' hd hb hloop ↦
      (h.phi hv hi hop hphi hop' hd hb hloop).mono rfl (fun hc ↦ hc) fun hv ↦ hv
    distinct := h.distinct
    waiting := h.waiting
    of_waiting := h.of_waiting
    forwarded := fun hne ↦ by
      obtain ⟨b, d, blk, op, v, inputs, hf⟩ := h.forwarded hne
      exact ⟨b, d, blk, op, v, inputs, hf.mono rfl (fun hc ↦ hc) fun hv ↦ hv⟩ }

namespace Assembled

private theorem skip (h : Assembled g s fwd ρ n a) (hnone : a.copy? n = none) :
    Assembled g s fwd ρ (n + 1) a := by
  refine ⟨h.copying.mono (Nat.le_succ n), h.bound_eq,
    fun hv hi ↦ Nat.lt_succ_of_lt (h.below hv hi), h.filled, h.entry, ?_⟩
  have hne : n ≠ 0 := by
    rintro rfl
    rw [h.entry] at hnone
    cases hnone
  rw [h.first, if_neg hne, if_neg (Nat.succ_ne_zero n)]

private theorem fill (hA : Liveness.Analysed g s) (h : Assembled g s fwd ρ n a) {c : BlockIndex}
    {output : Graph} (hc : a.copy? n = some c) (hbind : a.output.bind c = .ok output) {u : PUnit}
    (hops : Yields ((g.span n).toList.forM (Build.copyOp (Graph.eliminators s fwd)))
      { a with output, filled := a.filled.push c, current := some n } u a')
    (hbound : a'.output.bound = none) : ∃ ρ', Assembled g s fwd ρ' (n + 1) a' := by
  have hcopying := h.copying.bind hbind
  obtain ⟨-, -, rfl⟩ := Graph.bind_eq_ok hbind
  have hempty : ∀ j ∈ (g.span n).toList, a.value? j = none := by
    intro j hj
    rw [Option.eq_none_iff_forall_ne_some]
    exact fun v hv ↦ Nat.lt_irrefl n (h.below hv hj)
  obtain ⟨⟨ρ', h'⟩, hgrows, hkept⟩ := Copying.copyOps hA [] hcopying hc
    (fun hd ↦ (Option.some.inj hd).symm) (List.nil_append _).symm hempty hops
  have hfilled : a'.filled = a.filled.push c := hgrows.filled_eq
  refine ⟨ρ', h'.mono (Nat.le_succ n), hbound, fun {i v b} hv hi ↦ ?_, fun d hd ↦ ?_,
    hgrows.copy h.entry, ?_⟩
  · obtain ⟨b', -, hi', hle, -⟩ := h'.owner hv
    rw [hA.sound.span_disjoint hi hi']
    exact Nat.lt_succ_of_le hle
  · rw [hfilled, Array.toList_push, List.mem_append, List.mem_singleton] at hd
    rcases hd with hd | rfl
    · obtain ⟨b, hb, hcomplete⟩ := h.filled d hd
      refine ⟨b, hgrows.copy hb, fun hi hop hk ↦ ?_⟩
      obtain ⟨v, hv⟩ := Option.isSome_iff_exists.mp (hcomplete hi hop hk)
      rw [hgrows.value hv, Option.isSome_some]
    · exact ⟨n, hgrows.copy hc, hkept⟩
  · rw [hfilled, Array.toList_push, List.head?_append, h.first, if_neg (Nat.succ_ne_zero n)]
    split
    · -- the first block to be filled is the entry
      rename_i hn
      rw [hn, h.entry] at hc
      exact hc.symm
    · rfl

private theorem copyBlock (hA : Liveness.Analysed g s) (h : Assembled g s fwd ρ n a) {u : PUnit}
    (hy : Yields (Build.copyBlock (Graph.eliminators s fwd) n) a u a') :
    ∃ ρ', Assembled g s fwd ρ' (n + 1) a' := by
  obtain ⟨w, a₀, hw, hcases⟩ := Build.yields_copyBlock hy
  have hw : Yields (Build.wanted n) a w a₀ := by cases fwd <;> exact hw
  obtain ⟨rfl, hwanted⟩ := Build.yields_wanted hw
  rcases hcases with ⟨rfl, rfl⟩ | ⟨rfl, c, a₁, output, hmap, hbind, hops, hbound⟩
  · exact ⟨ρ, h.skip (Option.not_isSome_iff_eq_none.mp (by rw [← hwanted]; exact nofun))⟩
  · rcases Build.yields_mapBlock hmap with ⟨hc, rfl⟩ | ⟨hnone, -⟩
    · have hspan : (a₁.source.span n).toList = (g.span n).toList := by rw [h.copying.source_eq]
      rw [hspan] at hops
      exact h.fill hA hc hbind hops hbound
    · rw [hnone] at hwanted
      cases hwanted

private theorem copyBlocks (hA : Liveness.Analysed g s) {u : PUnit} :
    ∀ {k n : Nat} {ρ : OpIndex → OpIndex} {a : Assembler}, Assembled g s fwd ρ n a →
      Yields ((List.range' n k).forM (Build.copyBlock (Graph.eliminators s fwd))) a u a' →
      ∃ ρ', Assembled g s fwd ρ' (n + k) a' := by
  intro k
  induction k with
  | zero =>
    intro n ρ a h hy
    rw [List.range'_zero, yields_forM_nil] at hy
    rw [hy]
    exact ⟨ρ, h⟩
  | succ k ih =>
    intro n ρ a h hy
    rw [List.range'_succ, yields_forM_cons] at hy
    obtain ⟨a₁, hn, hy⟩ := hy
    obtain ⟨ρ₁, h₁⟩ := h.copyBlock hA hn
    rw [Nat.add_succ, ← Nat.succ_add]
    exact ih h₁ hy

end Assembled

/-! ## Loop phis

When all blocks are done, each phi that waits takes its inputs again. Nothing but inputs changes, so
that the phis do not get into each other's way. -/

/-- The phi `i`, if it has a value of its own, has its final inputs. -/
def PhiComplete (g : Graph) (ρ : OpIndex → OpIndex) (a : Assembler) (i : OpIndex) : Prop :=
  ∀ (v : OpIndex) (op op' : Operation) (b c : BlockIndex), a.own ρ i = some v →
    i ∈ (g.span b).toList → g.ops[i]? = some op → op.isPhi = true → a.output.ops[v]? = some op' →
    a.copy? b = some c → PhiMatched g a.output a.copy? a.value? b c op op'

/-- The assembler after the inputs of phis were set. -/
structure Completes (g : Graph) (ρ : OpIndex → OpIndex) (a a' : Assembler) : Prop where
  copy_eq : a'.copy? = a.copy?
  value_eq : a'.value? = a.value?
  filled_eq : a'.filled = a.filled
  waiting_eq : a'.waiting = a.waiting
  bound_eq : a'.output.bound = a.output.bound
  complete : ∀ i, PhiComplete g ρ a i → PhiComplete g ρ a' i

private theorem Completes.trans {a₁ : Assembler} (h : Completes g ρ a a₁)
    (h' : Completes g ρ a₁ a') : Completes g ρ a a' :=
  ⟨h'.copy_eq.trans h.copy_eq, h'.value_eq.trans h.value_eq, h'.filled_eq.trans h.filled_eq,
    h'.waiting_eq.trans h.waiting_eq, h'.bound_eq.trans h.bound_eq,
    fun i hi ↦ h'.complete i (h.complete i hi)⟩

section

variable {out i : OpIndex} {inputs : List (Option OpIndex)} {complete : Bool} {output : Graph}
  (hset : a.output.setInputs out (inputs.map (·.getD noHandle)) = .ok output)

variable (hg : g.Sound) (h : Copying g s fwd ρ n a) (hmem : (out, i) ∈ a.waiting.toList)

include hset hg h hmem

/-- The phi takes its inputs from the predecessors as they are. -/
theorem phiComplete_self (hin : Yields (Build.phiInputs i) a (inputs, complete) a) :
    PhiComplete g ρ { a with output } i := by
  intro v op op' b c hv hb hop _ hop' hc
  have halike := Graph.setInputs_alike hset
  obtain ⟨hi, -⟩ := h.of_waiting hmem
  have hv : a.own ρ i = some v := hv
  cases hi.symm.trans hv
  change output.ops[out]? = some op' at hop'
  rw [Graph.setInputs_op_self hset, Option.map_eq_some_iff] at hop'
  obtain ⟨old, -, rfl⟩ := hop'
  have hmatched := h.phiMatched ((hg.mem_span_iff i b).mp hb) hop hc hin
  exact ⟨fun hq ↦ by
    rw [halike.predecessors_eq] at hq ⊢
    exact hmatched.input hq⟩

theorem phiComplete_of_setInputs (hin : Yields (Build.phiInputs i) a (inputs, complete) a)
    {j : OpIndex} (hj : PhiComplete g ρ a j) : PhiComplete g ρ { a with output } j := by
  intro v op op' b c hv hb hop hphi hop' hc
  by_cases hout : v = out
  · have hij : j = i := h.value_inj hv (hout ▸ (h.of_waiting hmem).1)
    subst hij
    exact phiComplete_self hset hg h hmem hin v op op' b c hv hb hop hphi hop' hc
  · change output.ops[v]? = some op' at hop'
    rw [Graph.setInputs_op_of_ne hset hout] at hop'
    exact (hj v op op' b c hv hb hop hphi hop' hc).mono
      ((Graph.setInputs_alike hset).predecessors_eq c) (fun hc ↦ hc) fun hv ↦ hv

private theorem Copying.setInputs (hin : Yields (Build.phiInputs i) a (inputs, complete) a) :
    Copying g s fwd ρ n { a with output } := by
  have halike := Graph.setInputs_alike hset
  obtain ⟨hi, ⟨op, hop, hphi⟩, b₀, blk₀, hib₀, hblk₀, hloop₀⟩ := h.of_waiting hmem
  refine {
    source_eq := h.source_eq
    opMap_size := h.opMap_size
    blockMap_size := h.blockMap_size
    sound := halike.sound h.sound
    origin_size := h.origin_size.trans halike.blockCount_eq.symm
    copy_iff := h.copy_iff
    plain := h.plain
    root := h.root
    value_root := h.value_root
    span := fun {b c} hc ↦ by
      rw [halike.span_eq]
      exact h.span hc
    owner := h.owner
    image := fun {j v op₀} hv hop₀ ↦ ?_
    phi := fun {j v op₀ op' b c blk} hv hb hop₀ hphi₀ hop' hc hblk hloop ↦ ?_
    distinct := fun hf {j v op₀ op' b blk} hv hb hop₀ hphi₀ hop' hblk hloop ↦ ?_
    waiting := h.waiting
    of_waiting := h.of_waiting
    forwarded := fun hne ↦ ?_ }
  · obtain ⟨op', hop', himage⟩ := h.image hv hop₀
    change ∃ op', output.ops[v]? = some op' ∧ _
    by_cases hout : v = out
    · have hij : j = i := h.value_inj hv (hout ▸ hi)
      subst hij hout
      cases hop.symm.trans hop₀
      rw [Graph.setInputs_op_self hset, hop']
      exact ⟨_, rfl, .phi hphi (himage.isLive_of_isPhi hphi) (himage.action_of_isPhi hphi)⟩
    · rw [Graph.setInputs_op_of_ne hset hout]
      exact ⟨op', hop', himage⟩
  · refine phiComplete_of_setInputs hset hg h hmem hin (fun v' op₁ op₁' b' c' hv' hb' hop₁ hphi₁
      hop₁' hc' ↦ ?_) v op₀ op' b c hv hb hop₀ hphi₀ hop' hc
    cases hg.span_disjoint hb hb'
    exact h.phi hv' hb hop₁ hphi₁ hop₁' hc' hblk hloop
  · -- a phi that waits stands in a loop block
    have hout : v ≠ out := by
      rintro rfl
      obtain rfl := h.value_inj hv hi
      obtain rfl := hg.span_disjoint hb hib₀
      cases hblk.symm.trans hblk₀
      rw [hloop] at hloop₀
      cases hloop₀
    change output.ops[v]? = some op' at hop'
    rw [Graph.setInputs_op_of_ne hset hout] at hop'
    exact h.distinct hf hv hb hop₀ hphi₀ hop' hblk hloop
  · obtain ⟨b, c, blk, op₀, v, inputs', hf⟩ := h.forwarded hne
    exact ⟨b, c, blk, op₀, v, inputs', hf.mono (halike.predecessors_eq c) (fun hc ↦ hc)
      fun hv ↦ hv⟩

end

private theorem Copying.completePhi (hg : g.Sound) (h : Copying g s fwd ρ n a) {out i : OpIndex}
    (hmem : (out, i) ∈ a.waiting.toList) {u : PUnit}
    (hy : Yields (Build.completePhi out i) a u a') :
    Copying g s fwd ρ n a' ∧ Completes g ρ a a' ∧ PhiComplete g ρ a' i := by
  obtain ⟨inputs, complete, hin, hset, ha'⟩ := Build.yields_completePhi hy
  have halike := Graph.setInputs_alike hset
  rw [ha']
  exact ⟨h.setInputs hset hg hmem hin, ⟨rfl, rfl, rfl, rfl, halike.bound, fun j hj ↦
    phiComplete_of_setInputs hset hg h hmem hin hj⟩, phiComplete_self hset hg h hmem hin⟩

private theorem Copying.completePhis (hg : g.Sound) {u : PUnit} : ∀ {l : List (OpIndex × OpIndex)}
    {a : Assembler}, Copying g s fwd ρ n a → (∀ e ∈ l, e ∈ a.waiting.toList) →
    Yields (l.forM fun e ↦ Build.completePhi e.1 e.2) a u a' →
    Copying g s fwd ρ n a' ∧ Completes g ρ a a' ∧ ∀ e ∈ l, PhiComplete g ρ a' e.2 := by
  intro l
  induction l with
  | nil =>
    intro a h _ hy
    rw [yields_forM_nil] at hy
    rw [hy]
    exact ⟨h, ⟨rfl, rfl, rfl, rfl, rfl, fun _ hi ↦ hi⟩, by simp⟩
  | cons e l ih =>
    intro a h hl hy
    rw [List.forall_mem_cons] at hl
    obtain ⟨a₁, he, hy⟩ := yields_forM_cons.mp hy
    obtain ⟨h₁, hc₁, hself⟩ := h.completePhi hg hl.1 he
    obtain ⟨h', hc', hrest⟩ := ih h₁ (fun e he ↦ hc₁.waiting_eq ▸ hl.2 e he) hy
    exact ⟨h', hc₁.trans hc', List.forall_mem_cons.mpr ⟨hc'.complete _ hself, hrest⟩⟩

/-- The whole copy, with the inputs of all its phis. -/
theorem assembled_of_yields (hA : Liveness.Analysed g s) {c : BlockIndex} {a₁ a₂ : Assembler}
    (hmap : Yields (Build.mapBlock 0) (.start g) c a₁)
    (hcopy : Yields ((List.range g.blockCount).forM
      (Build.copyBlock (Graph.eliminators s fwd))) a₁ ⟨⟩ a₂)
    (hphis : Yields (a₂.waiting.toList.forM fun e ↦ Build.completePhi e.1 e.2) a₂ ⟨⟩ a) :
    ∃ ρ, Assembled g s fwd ρ g.blockCount a ∧ ∀ i, PhiComplete g ρ a i := by
  rw [List.range_eq_range'] at hcopy
  obtain ⟨ρ, h₂⟩ := (assembled_zero (s := s) hA.sound hmap).copyBlocks hA hcopy
  rw [Nat.zero_add] at h₂
  obtain ⟨h', hcompletes, hdone⟩ := h₂.copying.completePhis hA.sound (fun e he ↦ he) hphis
  refine ⟨ρ, {
    copying := h'
    bound_eq := hcompletes.bound_eq.trans h₂.bound_eq
    below := by rw [hcompletes.value_eq]; exact h₂.below
    filled := by
      rw [hcompletes.filled_eq, hcompletes.copy_eq, hcompletes.value_eq]
      exact h₂.filled
    entry := by rw [hcompletes.copy_eq]; exact h₂.entry
    first := by rw [hcompletes.filled_eq]; exact h₂.first }, ?_⟩
  intro i v op op' b c hv hb hop hphi hop' hc
  obtain ⟨blk, hblk⟩ := Graph.exists_block (Graph.lt_blockCount_of_mem_span hb)
  cases hloop : blk.isLoop with
  | false => exact h'.phi hv hb hop hphi hop' hc hblk hloop
  | true =>
    have hmem := h'.waiting hv hb hop hphi hblk hloop
    rw [hcompletes.waiting_eq] at hmem
    exact hdone _ hmem v op op' b c hv hb hop hphi hop' hc

end Flowgraph
