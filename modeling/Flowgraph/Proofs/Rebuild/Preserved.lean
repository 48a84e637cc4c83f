import Flowgraph.Proofs.Rebuild.Remnant

/-!
# What elimination preserves

Without phi forwarding, elimination keeps a block if something that is left refers to it, and in
such a block it keeps the live operations and the rewritten jumps. Nothing else is kept and nothing
is made up, so that the operations of the result are those of the source with some left out, in the
order of the blocks.

Whether a block is kept is decided while jumps are redirected past blocks. A needed operation cannot
be lost that way: its block is solid, and rising paths to solid blocks survive.
-/

namespace Flowgraph

open Liveness (Survives)

variable {g g' : Graph} {s : Liveness} {β : BlockIndex → Option BlockIndex}
  {ω : OpIndex → Option OpIndex}

/-! ## The analysis -/

private theorem isJump_of_rewrites (hg : g.Sound) (hfit : g.Fit) (hord : g.InReversePostorder)
    (h : g.liveness = .ok s) {i : OpIndex} {op : Operation} (hop : g.ops[i]? = some op)
    (hi : (s.rewrites.get? i).isSome = true) : op.isJump = true := by
  obtain ⟨L, hL⟩ := Liveness.exists_isLeast_liveClosed hg hfit hord
  obtain ⟨t, ht⟩ := Option.isSome_iff_exists.mp hi
  rw [Graph.liveness, Graph.livenessOutcome] at h
  rcases (Liveness.supported_start g L).run hg hfit hord hL.1 (Liveness.effort_start_le g) with
    ⟨s', hrun, hs', -⟩ | ⟨s', i, b, op, -, -, -, -, hrun⟩
  · rw [hrun] at h
    cases h
    obtain ⟨op', hop', hjump⟩ := hs'.founded.jumps ht
    cases hop.symm.trans hop'
    exact hjump
  · rw [hrun] at h
    cases h

/-! ## Partial maps along lists

A partial map that takes a list to a list of the same kind, and what of the first list has images.
-/

/-- The elements that a partial map takes somewhere, and where it takes them. -/
theorem map_filter_isSome {α γ : Type} (f : α → Option γ) (l : List α) :
    (l.filter fun x ↦ (f x).isSome).map f = (l.filterMap f).map some := by
  induction l with
  | nil => rfl
  | cons x l ih =>
    cases hx : f x with
    | none => rw [List.filter_cons_of_neg (by simp [hx]), List.filterMap_cons_none hx, ih]
    | some y =>
      rw [List.filter_cons_of_pos (by simp [hx]), List.filterMap_cons_some hx, List.map_cons, ih,
        hx, List.map_cons]

theorem forall₂_of_map_eq {α γ : Type} {f : α → Option γ} : ∀ {l : List α} {l' : List γ},
    l.map f = l'.map some → List.Forall₂ (fun x y ↦ f x = some y) l l' := by
  intro l
  induction l with
  | nil =>
    intro l' h
    cases List.map_eq_nil_iff.mp h.symm
    exact .nil
  | cons x l ih =>
    intro l' h
    cases l' with
    | nil => cases h
    | cons y l' =>
      rw [List.map_cons, List.map_cons, List.cons.injEq] at h
      exact .cons h.1 (ih h.2)

/-! ## What is left

The operations that are kept, in the order of the source, and the operations of the result, in their
order, correspond one to one. -/

/-- The operations of some blocks that are live or rewritten. -/
def keptOps (g : Graph) (s : Liveness) (blocks : List BlockIndex) : List OpIndex :=
  (g.opsOf blocks).filter fun i ↦ s.isLive i || (s.rewrites.get? i).isSome

/-- The blocks of a graph that have become something. -/
def copiedBlocks (g : Graph) (β : BlockIndex → Option BlockIndex) : List BlockIndex :=
  (List.range g.blockCount).filter fun b ↦ (β b).isSome

namespace Remnant

variable (h : Remnant g s g' β ω)

include h

theorem mem_copiedBlocks {b : BlockIndex} : b ∈ copiedBlocks g β ↔ ∃ c, β b = some c := by
  rw [copiedBlocks, List.mem_filter, List.mem_range, ← Option.isSome_iff_exists,
    and_iff_right_iff_imp]
  intro hb
  obtain ⟨c, hc⟩ := Option.isSome_iff_exists.mp hb
  exact h.reduced.block_lt hc

/-- The copied blocks are the blocks of the result, in order. -/
theorem map_copiedBlocks : (copiedBlocks g β).map β = (List.range g'.blockCount).map some := by
  rw [copiedBlocks, map_filter_isSome]
  congr 1
  have hmem : ∀ c, c ∈ (List.range g.blockCount).filterMap β ↔ c ∈ List.range g'.blockCount := by
    intro c
    rw [List.mem_filterMap, List.mem_range]
    constructor
    · rintro ⟨b, -, hb⟩
      exact h.thinned.block_lt hb
    · intro hc
      obtain ⟨b, hb⟩ := h.thinned.surj hc
      exact ⟨b, List.mem_range.mpr (h.reduced.block_lt hb), hb⟩
  have hsorted : ((List.range g.blockCount).filterMap β).Pairwise (· < ·) := by
    rw [List.pairwise_filterMap]
    exact List.pairwise_lt_range.imp fun hlt c hc d hd ↦ (h.thinned.lt_iff hc hd).mp hlt
  have hperm := (List.perm_ext_iff_of_nodup hsorted.nodup List.nodup_range).mpr hmem
  exact hperm.eq_of_pairwise' hsorted List.pairwise_lt_range

/-- The operations of the result stand for those of the copied blocks, in order. -/
theorem filterMap_opsOf : (g.opsOf (copiedBlocks g β)).filterMap ω = List.range g'.opCount := by
  have hblock : List.Forall₂ (fun b c ↦ (g.span b).toList.filterMap ω = (g'.span c).toList)
      (copiedBlocks g β) (List.range g'.blockCount) :=
    (forall₂_of_map_eq h.map_copiedBlocks).imp fun _ _ hc ↦ (h.reduced.span hc).symm
  rw [← h.laid.ops_eq, Graph.opsOf, Graph.opsOf, List.filterMap_flatMap]
  generalize copiedBlocks g β = bs, List.range g'.blockCount = cs at hblock
  induction hblock with
  | nil => rfl
  | cons hspan _ ih => rw [List.flatMap_cons, List.flatMap_cons, hspan, ih]

private theorem isSome_iff (hA : Liveness.Analysed g s)
    (hjumps : ∀ {i : OpIndex} {op : Operation}, g.ops[i]? = some op →
      (s.rewrites.get? i).isSome = true → op.isJump = true)
    {i : OpIndex} (hi : i ∈ g.opsOf (copiedBlocks g β)) :
    (ω i).isSome = (s.isLive i || (s.rewrites.get? i).isSome) := by
  obtain ⟨b, hb, hib⟩ := List.mem_flatMap.mp hi
  obtain ⟨c, hc⟩ := h.mem_copiedBlocks.mp hb
  obtain ⟨op, hop⟩ := Graph.exists_op (hA.sound.lt_of_mem_span hib)
  have hkept : s.Kept i op ↔ (s.isLive i || (s.rewrites.get? i).isSome) = true := by
    rw [Bool.or_eq_true, Liveness.Kept]
    refine or_congr_right ⟨fun hre ↦ ?_, fun hre ↦ ?_⟩
    · rwa [Liveness.rewrite?, if_pos (Liveness.isJump_of_rewrite hre)] at hre
    · rwa [Liveness.rewrite?, if_pos (hjumps hop hre)]
  rw [Bool.eq_iff_iff, ← hkept]
  constructor
  · intro hsome
    obtain ⟨v, hv⟩ := Option.isSome_iff_exists.mp hsome
    obtain ⟨op', -, himage⟩ := h.reduced.image hv hop
    exact himage.kept
  · exact h.reduced.kept hc hib hop

variable (hA : Liveness.Analysed g s)
  (hjumps : ∀ {i : OpIndex} {op : Operation}, g.ops[i]? = some op →
    (s.rewrites.get? i).isSome = true → op.isJump = true)

include hA hjumps

theorem map_keptOps :
    (keptOps g s (copiedBlocks g β)).map ω = (List.range g'.opCount).map some := by
  rw [keptOps, ← List.filter_congr fun i hi ↦ h.isSome_iff hA hjumps hi, map_filter_isSome,
    h.filterMap_opsOf]

omit h hjumps in
theorem nodup_keptOps : (keptOps g s (copiedBlocks g β)).Nodup :=
  (Graph.nodup_opsOf hA.sound (List.nodup_range.filter _)).filter _

private theorem forall₂_image : List.Forall₂
    (fun i op' ↦ ∃ op, g.ops[i]? = some op ∧ Image s β ω i op op')
    (keptOps g s (copiedBlocks g β)) g'.ops.toList := by
  have hvalues := forall₂_of_map_eq (h.map_keptOps hA hjumps)
  rw [List.forall₂_iff_get] at hvalues ⊢
  obtain ⟨hlen, hvalues⟩ := hvalues
  rw [List.length_range] at hlen
  refine ⟨by rw [hlen, Array.length_toList]; rfl, fun k hk hk' ↦ ?_⟩
  have hv := hvalues k hk (by rwa [List.length_range, ← hlen])
  simp only [List.get_eq_getElem, List.getElem_range, Array.getElem_toList] at hv ⊢
  have hmem := List.mem_of_mem_filter (List.getElem_mem hk)
  obtain ⟨b, -, hib⟩ := List.mem_flatMap.mp hmem
  obtain ⟨op, hop⟩ := Graph.exists_op (hA.sound.lt_of_mem_span hib)
  obtain ⟨op', hop', himage⟩ := h.reduced.image hv hop
  rw [Array.getElem?_eq_getElem (by simpa using hk')] at hop'
  cases hop'
  exact ⟨op, hop, himage⟩

private theorem opCount_le : g'.opCount ≤ g.opCount := by
  have hlen := congrArg List.length (h.map_keptOps hA hjumps)
  rw [List.length_map, List.length_map, List.length_range] at hlen
  have hsub : keptOps g s (copiedBlocks g β) ⊆ List.range g.opCount := fun i hi ↦ by
    obtain ⟨b, -, hib⟩ := List.mem_flatMap.mp (List.mem_of_mem_filter hi)
    exact List.mem_range.mpr (hA.sound.lt_of_mem_span hib)
  have hle := ((nodup_keptOps (β := β) hA).subperm hsub).length_le
  rwa [hlen, List.length_range] at hle

omit hA hjumps in
private theorem blockCount_le : g'.blockCount ≤ g.blockCount := by
  have hlen := congrArg List.length h.map_copiedBlocks
  rw [List.length_map, List.length_map, List.length_range] at hlen
  have hle := List.length_filter_le (fun b ↦ (β b).isSome) (List.range g.blockCount)
  rwa [List.length_range, ← copiedBlocks, hlen] at hle

end Remnant

/-! ## Effects

The effects of a graph are its required operations in order. An image has the action of its source,
and nothing but effects becomes one. -/

/-- The action of an operation that has to be kept whether it is used or not. -/
def Graph.effect? (g : Graph) (i : OpIndex) : Option Action :=
  g.ops[i]?.bind fun op ↦ if op.isRequired then some op.action else none

/-- The calls, returns and other required operations of a graph, block by block. -/
def Graph.effects (g : Graph) : List Action :=
  (g.opsOf (List.range g.blockCount)).filterMap g.effect?

private theorem flatMap_filter {α γ : Type} {f : α → List γ} {p : α → Bool} {l : List α}
    (hp : ∀ x ∈ l, p x = false → f x = []) : (l.filter p).flatMap f = l.flatMap f := by
  induction l with
  | nil => rfl
  | cons x l ih =>
    rw [List.forall_mem_cons] at hp
    rw [List.flatMap_cons, ← ih hp.2]
    cases hx : p x with
    | true => rw [List.filter_cons_of_pos hx, List.flatMap_cons]
    | false => rw [List.filter_cons_of_neg (by simp [hx]), hp.1 hx, List.nil_append]

private theorem Image.effect_eq {i : OpIndex} {op op' : Operation} (h : Image s β ω i op op') :
    op'.isRequired = op.isRequired ∧ (op.isRequired = true → op'.action = op.action) := by
  cases h with
  | rewritten ht =>
    have hjump := Liveness.isJump_of_rewrite (s := s) (i := i) (by rw [ht, Option.isSome_some])
    have hreq := Liveness.isRequired_of_isJump hjump
    exact ⟨hreq.symm, fun htrue ↦ by rw [hreq] at htrue; cases htrue⟩
  | phi _ _ haction =>
    exact ⟨by rw [Operation.isRequired, haction, ← Operation.isRequired], fun _ ↦ haction⟩
  | renamed _ _ _ hren =>
    refine ⟨hren.sort_eq.2.2.1, fun hreq ↦ ?_⟩
    rcases hren.action_cases with ⟨t, c, haction, -⟩ | ⟨t, f, c, d, hint, haction, -⟩ | ⟨heq, -⟩
    · simp [Operation.isRequired, haction] at hreq
    · simp [Operation.isRequired, haction] at hreq
    · exact heq

private theorem Remnant.effects_eq (h : Remnant g s g' β ω) (hA : Liveness.Analysed g s) :
    g'.effects = g.effects := by
  -- a block that is not copied has nothing that is required
  have hcopied : (g.opsOf (copiedBlocks g β)).filterMap g.effect? = g.effects := by
    rw [Graph.effects, Graph.opsOf, Graph.opsOf, List.filterMap_flatMap, List.filterMap_flatMap]
    refine flatMap_filter fun b hb hnone ↦ List.filterMap_eq_nil_iff.mpr fun i hi ↦ ?_
    obtain ⟨op, hop⟩ := Graph.exists_op (hA.sound.lt_of_mem_span hi)
    rw [Graph.effect?, hop, Option.bind_some, if_neg]
    intro hreq
    obtain ⟨c, v, hc, -⟩ := h.exists_value hA hi (hA.isLive_of_required hop hreq)
    rw [hc] at hnone
    cases hnone
  rw [← hcopied, Graph.effects, h.laid.ops_eq, ← h.filterMap_opsOf, List.filterMap_filterMap]
  refine List.filterMap_congr fun i hi ↦ ?_
  obtain ⟨b, hb, hib⟩ := List.mem_flatMap.mp hi
  obtain ⟨c, hc⟩ := h.mem_copiedBlocks.mp hb
  obtain ⟨op, hop⟩ := Graph.exists_op (hA.sound.lt_of_mem_span hib)
  rw [Graph.effect?, hop, Option.bind_some]
  cases hv : ω i with
  | none =>
    rw [Option.bind_none, if_neg]
    intro hreq
    have hsome := h.reduced.kept hc hib hop (.inl (hA.isLive_of_required hop hreq))
    rw [hv] at hsome
    cases hsome
  | some v =>
    obtain ⟨op', hop', himage⟩ := h.reduced.image hv hop
    obtain ⟨hreq, haction⟩ := himage.effect_eq
    rw [Option.bind_some, Graph.effect?, hop', Option.bind_some, hreq]
    split
    · rename_i htrue
      rw [haction htrue]
    · rfl

/-! ## Elimination -/

/-- What elimination without phi forwarding keeps of a graph: the blocks that survive, among them
every block with a live operation, and of these blocks the operations that are live or rewritten,
in their order and as what they stand for. So each operation that is required is kept once, and the
result has no more operations and no more blocks than the source. -/
theorem preserved_of_eliminate (hbuilt : g.Built) (hfit : g.problems true = [])
    (h : g.eliminate false = .ok (g', s)) :
    ∃ (copied : List BlockIndex) (β : BlockIndex → Option BlockIndex)
      (ω : OpIndex → Option OpIndex),
      copied.Pairwise (· < ·) ∧ (∀ b, b ∈ copied ↔ Survives g s b) ∧
      copied.map β = (List.range g'.blockCount).map some ∧
      (∀ b, ∀ i ∈ (g.span b).toList, s.isLive i = true → b ∈ copied) ∧
      (keptOps g s copied).Nodup ∧
      (keptOps g s copied).map ω = (List.range g'.opCount).map some ∧
      List.Forall₂ (fun i op' ↦ ∃ op, g.ops[i]? = some op ∧ Image s β ω i op op')
        (keptOps g s copied) g'.ops.toList ∧
      (∀ b c, β b = some c → (g'.span c).toList = (g.span b).toList.filterMap ω) ∧
      (∀ i op, g.ops[i]? = some op → op.isRequired = true → (keptOps g s copied).count i = 1) ∧
      g'.effects = g.effects ∧ g'.opCount ≤ g.opCount ∧ g'.blockCount ≤ g.blockCount := by
  rw [Graph.eliminate] at h
  obtain ⟨s', hs, h⟩ := exists_of_bind_ok h
  obtain ⟨g'', hre, h⟩ := exists_of_bind_ok h
  cases h
  have hg := hbuilt.sound
  obtain ⟨hf, hord⟩ := (Graph.problems_eq_nil hg true).mp hfit
  have hA := Liveness.analysed_of_liveness hbuilt hfit hs
  have hjumps : ∀ {i : OpIndex} {op : Operation}, g.ops[i]? = some op →
      (s.rewrites.get? i).isSome = true → op.isJump = true :=
    isJump_of_rewrites hg hf (hord rfl) hs
  obtain ⟨β, ω, hR⟩ := exists_remnant hA hre
  have hlive : ∀ b, ∀ i ∈ (g.span b).toList, s.isLive i = true → b ∈ copiedBlocks g β :=
    fun b i hi hi' ↦ by
      obtain ⟨c, v, hc, -⟩ := hR.exists_value hA hi hi'
      exact hR.mem_copiedBlocks.mpr ⟨c, hc⟩
  refine ⟨copiedBlocks g β, β, ω, List.pairwise_lt_range.filter _, fun b ↦ ?_,
    hR.map_copiedBlocks, hlive, Remnant.nodup_keptOps hA, hR.map_keptOps hA hjumps,
    hR.forall₂_image hA hjumps, fun b c hc ↦ hR.reduced.span hc, fun i op hop hreq ↦ ?_,
    hR.effects_eq hA, hR.opCount_le hA hjumps, hR.blockCount_le⟩
  · rw [hR.mem_copiedBlocks, ← Option.isSome_iff_exists, hR.thinned.isSome_iff]
  -- a required operation is live, and so its block is copied
  · refine List.count_eq_one_of_mem (Remnant.nodup_keptOps hA) ?_
    have hi := hA.isLive_of_required hop hreq
    obtain ⟨b, hb⟩ := hg.exists_owner (Graph.lt_opCount hop)
    exact List.mem_filter.mpr ⟨List.mem_flatMap.mpr ⟨b, hlive b i hb hi, hb⟩, by rw [hi]; rfl⟩

/-- What is kept of a loop that counts along for nothing. -/
theorem preserved_sampleCounter :
    ∃ g' s copied, Graph.sampleCounter.eliminate false = .ok (g', s) ∧ g'.opCount = 7 ∧
      (keptOps Graph.sampleCounter s copied).length = 7 ∧ Graph.sampleCounter.opCount = 8 ∧
      g'.effects = [.ret] := by
  have hcount : (Graph.sampleCounter.eliminate false).toOption.map (·.1.opCount) = some 7 := by
    decide +kernel
  cases hok : Graph.sampleCounter.eliminate false with
  | error e =>
    rw [hok] at hcount
    cases hcount
  | ok r =>
    obtain ⟨g', s⟩ := r
    rw [hok] at hcount
    have hcount : g'.opCount = 7 := Option.some.inj hcount
    have hbuilt : Graph.sampleCounter.Built :=
      Graph.ofBlocks_built (show Graph.ofBlocks counterBlocks = _ from rfl)
    obtain ⟨copied, β, ω, -, -, -, -, -, hmap, -, -, -, heffects, -⟩ :=
      preserved_of_eliminate hbuilt (by decide) hok
    have hlen := congrArg List.length hmap
    rw [List.length_map, List.length_map, List.length_range, hcount] at hlen
    exact ⟨g', s, copied, rfl, hcount, hlen, rfl, heffects.trans rfl⟩

end Flowgraph
