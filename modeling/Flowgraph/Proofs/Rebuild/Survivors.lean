import Flowgraph.Proofs.Order.Leftmost
import Flowgraph.Proofs.Rebuild.Copy

/-!
# The blocks that survive

Which blocks a graph keeps without its dead operations, and where control goes between them, can be
read off the analysis before anything is copied. A block survives if control gets to it from the
entry over rising edges, when rewritten jumps go straight to their targets.

## What is lost and what is not

Rewritten jumps pass over blocks, but never over one that is needed: a rising path to a needed
block becomes one of the remaining graph once the blocks that control only passes through are taken
out. The same holds of leftmost paths, because all ways through a stretch that is passed over lead
to the same block. Loops are needed, so that the edges that do not rise stay backedges, and a graph
in reverse postorder stays one.
-/

namespace Flowgraph

/-- Lists that are mapped to each other hold a block and its image equally often. -/
theorem count_of_map_eq {β : BlockIndex → Option BlockIndex} {l l' : List BlockIndex}
    (hmap : l.map β = l'.map some) {b c : BlockIndex} (hb : β b = some c)
    (hinj : ∀ {b'}, β b' = some c → b' = b) : l'.count c = l.count b := by
  have hsome : (l'.map some).count (some c) = l'.count c :=
    List.count_map_of_injective _ _ (Option.some_injective _) c
  rw [← hsome, ← hmap, List.count_eq_countP, List.countP_map, List.count_eq_countP]
  refine List.countP_congr fun d _ ↦ ?_
  simp only [Function.comp_apply, beq_iff_eq]
  exact ⟨hinj, fun heq ↦ heq ▸ hb⟩

namespace Liveness

/-- Where control goes from what is left of a block. -/
def exits (g : Graph) (s : Liveness) (b : BlockIndex) : List BlockIndex :=
  match (g.terminator? b).bind fun i ↦ g.ops[i]?.bind (s.rewrite? i) with
  | some t => [t]
  | none => g.successors b

/-- The blocks that are left. -/
inductive Survives (g : Graph) (s : Liveness) : BlockIndex → Prop where
  | entry : Survives g s 0
  | exit {b t : BlockIndex} : Survives g s b → b < t → t ∈ exits g s b → Survives g s t

/-- Rising exits lead from `x` to `y`. -/
def LeadsOn (g : Graph) (s : Liveness) (x y : BlockIndex) : Prop :=
  Relation.ReflTransGen (fun b t ↦ b < t ∧ t ∈ exits g s b) x y

theorem survives_iff {g : Graph} {s : Liveness} {b : BlockIndex} :
    Survives g s b ↔ LeadsOn g s 0 b := by
  constructor
  · intro hb
    induction hb with
    | entry => exact .refl
    | exit _ hlt ht ih => exact ih.tail ⟨hlt, ht⟩
  · intro hleads
    induction hleads with
    | refl => exact .entry
    | tail _ hexit ih => exact ih.exit hexit.1 hexit.2

/-- Control does not pass through the block to another one. -/
def Solid (s : Liveness) (b : BlockIndex) : Prop :=
  s.controlOf b = .stays ∨ s.controlOf b = .passes b

namespace Analysed

variable {g : Graph} {s : Liveness} (h : Analysed g s) {b c t x y : BlockIndex}

include h

/-! ## Exits

The exits of a block are its successors, or the single target of a rewritten jump. -/

theorem exits_of_terminator {i : OpIndex} {op : Operation} (hi : i ∈ (g.span b).toList)
    (hop : g.ops[i]? = some op) (hend : op.isTerminator = true) :
    exits g s b = match s.rewrite? i op with
      | some t => [t]
      | none => op.successors := by
  have hterm := (h.sound.ends hi hop hend).1
  rw [exits, hterm, Option.bind_some, hop, Option.bind_some,
    Graph.successors_of_terminator hterm hop]

/-- A block is left through a rewritten jump, or the way it was. -/
theorem exits_cases (hb : b < g.blockCount) :
    (∃ t, exits g s b = [t] ∧ b < t ∧ t < g.blockCount ∧ Outlet g s.isLive t ∧
        (∃ c, g.Arc b c) ∧ ∀ c, g.Arc b c → s.controlOf c = .passes t) ∨
      exits g s b = g.successors b ∧
        ((∃ c, g.Arc b c) → ∃ i ∈ (g.span b).toList, s.isLive i = true) := by
  obtain ⟨i, op, hterm, hi, hop, hend⟩ := h.determined.exists_terminator hb
  rw [h.exits_of_terminator hi hop hend, Graph.successors_of_terminator hterm hop]
  cases hjump : op.isJump with
  | false =>
    refine Or.inr ⟨by rw [rewrite?, hjump]; rfl, ?_⟩
    rintro ⟨c, harc⟩
    rw [Graph.Arc, Graph.successors_of_terminator hterm hop] at harc
    refine ⟨i, hi, h.isLive_of_required hop ?_⟩
    by_contra hreq
    rw [(successors_ne_nil hend (by simpa using hreq)).1] at hjump
    cases hjump
  | true =>
    rcases h.jump_cases hi hop hjump with ⟨hlive, hnone⟩ | ⟨t, ht, harcs⟩
    · exact Or.inr ⟨by rw [rewrite?, hjump, if_pos rfl, hnone], fun _ ↦ ⟨i, hi, hlive⟩⟩
    -- a rewritten jump leads where control comes out, which is behind the successors it skips
    · obtain ⟨-, hne⟩ := successors_ne_nil hend (isRequired_of_isJump hjump)
      rw [← Graph.successors_of_terminator hterm hop] at hne
      obtain ⟨c, hc⟩ := List.exists_mem_of_ne_nil _ hne
      obtain ⟨hct, htlt, hout⟩ :=
        h.determined.target_of_passes (h.sound.target_lt hc) (harcs c hc)
      have hbc := h.determined.lt_of_arc hc (harcs c hc)
      exact Or.inl ⟨t, by rw [rewrite?, hjump, if_pos rfl, ht], Nat.lt_of_lt_of_le hbc hct, htlt,
        hout, ⟨c, hc⟩, harcs⟩

private theorem exit_lt (ht : t ∈ exits g s b) (hb : b < g.blockCount) : t < g.blockCount := by
  rcases h.exits_cases hb with ⟨t', heq, -, htlt, -⟩ | ⟨heq, -⟩
  · rw [heq, List.mem_singleton] at ht
    exact ht ▸ htlt
  · rw [heq] at ht
    exact h.sound.target_lt ht

/-- A block at which control does not come out gains no edges. -/
theorem count_exits_le (hb : b < g.blockCount) (ht : ¬Outlet g s.isLive t) :
    (exits g s b).count t ≤ (g.successors b).count t := by
  rcases h.exits_cases hb with ⟨t', heq, -, -, hout, -⟩ | ⟨heq, -⟩
  · have hne : t' ≠ t := fun hne ↦ ht (hne ▸ hout)
    rw [heq, List.count_singleton, if_neg (by simpa using hne)]
    exact Nat.zero_le _
  · rw [heq]

/-- Control stops at a block with something live in it, or comes out there if no phi is live. -/
theorem control_of_isLive {i : OpIndex} (hi : i ∈ (g.span b).toList) (hlive : s.isLive i = true) :
    s.controlOf b = .stays ∨ s.controlOf b = .passes b ∧
      ((g.span b).toList.any fun i ↦ g.ops[i]?.any Operation.isPhi && s.isLive i) = false := by
  have hb := Graph.lt_blockCount_of_mem_span hi
  obtain ⟨blk, hblk⟩ := Graph.exists_block hb
  have hany : (g.span b).toList.any s.isLive = true := List.any_eq_true.mpr ⟨i, hi, hlive⟩
  have hcontrol := h.determined.settled hb hblk
  rw [hany, if_pos rfl] at hcontrol
  rw [hcontrol]
  rcases settle_cases b blk .stays ((g.span b).toList.any fun i ↦
    g.ops[i]?.any Operation.isPhi && s.isLive i) with heq | ⟨heq, -, hnone⟩ | heq
  · exact Or.inl heq
  · exact Or.inr ⟨heq, hnone⟩
  · exact Or.inl heq

/-- A block with something live in it is not passed over. -/
theorem solid_of_isLive {i : OpIndex} (hi : i ∈ (g.span b).toList) (hlive : s.isLive i = true) :
    s.Solid b :=
  (h.control_of_isLive hi hlive).imp_right And.left

/-- A block with a live phi has to be entered the way it is. -/
theorem stays_of_livePhi {i : OpIndex} {op : Operation} (hi : i ∈ (g.span b).toList)
    (hop : g.ops[i]? = some op) (hphi : op.isPhi = true) (hlive : s.isLive i = true) :
    s.controlOf b = .stays := by
  refine (h.control_of_isLive hi hlive).resolve_right ?_
  rintro ⟨-, hnone⟩
  rw [List.any_eq_false] at hnone
  simpa [hop, hphi, hlive] using hnone i hi

/-! ## Rising paths

Where control only passes through a block, it comes out at a solid block, which all ways lead to. So
a rising path to a solid block can be taken by exits alone. -/

private theorem leads_of_passes (hb : b < g.blockCount) (hpasses : s.controlOf b = .passes t) :
    g.Leads b t := by
  induction b, hb, hpasses using h.determined.passes_induction with
  | outlet => exact .refl
  | @through b c _ _ _ hc hnext =>
    obtain ⟨hlt, -, -, hleads⟩ := hnext c hc
    exact hleads.head ⟨hc, hlt⟩

private theorem leads_of_leadsOn (hx : x < g.blockCount) (hleads : LeadsOn g s x y) :
    y < g.blockCount ∧ g.Leads x y := by
  induction hleads with
  | refl => exact ⟨hx, .refl⟩
  | @tail b t _ hexit ih =>
    obtain ⟨hb, hxb⟩ := ih
    rcases h.exits_cases hb with ⟨t', heq, -, htlt, -, ⟨c, hc⟩, harcs⟩ | ⟨heq, -⟩
    · rw [heq, List.mem_singleton] at hexit
      rw [hexit.2]
      have hct := h.leads_of_passes (h.sound.target_lt hc) (harcs c hc)
      exact ⟨htlt, hxb.trans (hct.head ⟨hc, h.determined.lt_of_arc hc (harcs c hc)⟩)⟩
    · rw [heq] at hexit
      exact ⟨h.sound.target_lt hexit.2, hxb.tail ⟨hexit.2, hexit.1⟩⟩

/-- A rising path either survives, or ends where control passes through to a block that it
reaches. -/
private theorem leadsOn_of_leads (hleads : g.Leads x y) :
    LeadsOn g s x y ∨ ∃ t, LeadsOn g s x t ∧ s.controlOf y = .passes t ∧ y ≠ t := by
  induction hleads with
  | refl => exact Or.inl .refl
  | @tail b c _ hrise ih =>
    have hb : b < g.blockCount := (h.sound.arc_lt hrise.1).1
    rcases ih with ih | ⟨t, ht, hpasses, hne⟩
    · rcases h.exits_cases hb with ⟨t, heq, hlt, -, -, -, harcs⟩ | ⟨heq, -⟩
      · have ht : LeadsOn g s x t := ih.tail ⟨hlt, by rw [heq]; simp⟩
        by_cases hct : c = t
        · exact Or.inl (hct ▸ ht)
        · exact Or.inr ⟨t, ht, harcs c hrise.1, hct⟩
      · exact Or.inl (ih.tail ⟨hrise.2, by rw [heq]; exact hrise.1⟩)
    · -- the path goes on inside the stretch that is passed over
      rcases h.determined.eq_passes hb hpasses with ⟨rfl, -⟩ | ⟨-, harcs⟩
      · exact absurd rfl hne
      · by_cases hct : c = t
        · exact Or.inl (hct ▸ ht)
        · exact Or.inr ⟨t, ht, (harcs c hrise.1).2, hct⟩

theorem leadsOn_of_solid (hleads : g.Leads x y) (hy : s.Solid y) : LeadsOn g s x y := by
  rcases h.leadsOn_of_leads hleads with hon | ⟨t, -, hpasses, hne⟩
  · exact hon
  · rcases hy with hstays | hself
    · rw [hstays] at hpasses
      cases hpasses
    · rw [hself] at hpasses
      cases hpasses
      exact absurd rfl hne

/-! ## Survivors

A solid block that can be reached survives, and an edge that does not rise comes from a solid block.
-/

theorem survives_lt (hb : Survives g s b) : b < g.blockCount := by
  induction hb with
  | entry => exact h.fit.wellFormed.pos
  | exit _ _ ht ih => exact h.exit_lt ht ih

/-- What is needed survives. -/
theorem survives_of_solid (hb : b < g.blockCount) (hsolid : s.Solid b) : Survives g s b :=
  survives_iff.mpr (h.leadsOn_of_solid (Graph.leads_entry h.sound h.fit h.ordered hb) hsolid)

theorem stays_of_arc_le (harc : g.Arc b t) (hle : t ≤ b) : s.controlOf t = .stays := by
  obtain ⟨blk, hblk⟩ := Graph.exists_block (h.sound.target_lt harc)
  exact h.determined.control_of_isLoop hblk (isLoop_of_arc h.fit h.ordered hblk harc hle)

/-- Control goes from survivors to survivors only. -/
theorem survives_of_exit (hb : Survives g s b) (ht : t ∈ exits g s b) : Survives g s t := by
  rcases Nat.lt_or_ge b t with hlt | hle
  · exact hb.exit hlt ht
  · have hbn := h.survives_lt hb
    rcases h.exits_cases hbn with ⟨t', heq, hlt, -⟩ | ⟨heq, -⟩
    · rw [heq, List.mem_singleton] at ht
      exact absurd (ht ▸ hlt) (Nat.not_lt.mpr hle)
    · rw [heq] at ht
      exact h.survives_of_solid (h.sound.target_lt ht) (Or.inl (h.stays_of_arc_le ht hle))

/-- A block that is needed as it is keeps its incoming edges. -/
theorem exits_of_arc (harc : g.Arc b t) (ht : s.controlOf t = .stays) :
    s.Solid b ∧ exits g s b = g.successors b := by
  rcases h.exits_cases (h.sound.arc_lt harc).1 with ⟨t', -, -, -, -, -, harcs⟩ | ⟨heq, hlive⟩
  · rw [harcs t harc] at ht
    cases ht
  · obtain ⟨i, hi, hlive⟩ := hlive ⟨t, harc⟩
    exact ⟨h.solid_of_isLive hi hlive, heq⟩

/-- An exit that does not rise is an edge. -/
theorem arc_of_exit_le (hb : b < g.blockCount) (ht : t ∈ exits g s b) (hle : t ≤ b) :
    g.Arc b t := by
  rcases h.exits_cases hb with ⟨t', heq, hlt, -⟩ | ⟨heq, -⟩
  · rw [heq, List.mem_singleton] at ht
    exact absurd (ht ▸ hlt) (Nat.not_lt.mpr hle)
  · rwa [heq] at ht

/-- The leftmost path to a needed block goes through the place where control comes out. -/
private theorem onLeft_of_passes {u : BlockIndex} (hc : s.controlOf c = .stays)
    (hleft : g.OnLeft u x c) : x < g.blockCount → s.controlOf x = .passes t → g.OnLeft u t c := by
  induction hleft with
  | here =>
    intro _ hpasses
    rw [hc] at hpasses
    cases hpasses
  | @step x d _ pre post hsplit hlt hleads hfirst hon ih =>
    intro hx hpasses
    rcases h.determined.eq_passes hx hpasses with ⟨rfl, -⟩ | ⟨-, harcs⟩
    · exact .step hsplit hlt hleads hfirst hon
    · have harc : g.Arc x d := by rw [Graph.Arc, hsplit]; simp
      exact ih hc (h.sound.target_lt harc) (harcs d harc).2

end Analysed

/-! ## The remaining graph

The paths of what is left, in terms of the survivors: the same ones rise, and the same ones are
leftmost. The reverse postorder is read off the leftmost paths. -/

/-- `g'` has the surviving blocks of `g` in the same order, joined by their exits. Block `b` of `g`
is block `β b` of `g'`. -/
structure Thinned (g : Graph) (s : Liveness) (g' : Graph) (β : BlockIndex → Option BlockIndex) :
    Prop where
  sound : g'.Sound
  isSome_iff : ∀ {b : BlockIndex}, (β b).isSome = true ↔ Survives g s b
  lt_iff : ∀ {b b' c c' : BlockIndex}, β b = some c → β b' = some c' → (b < b' ↔ c < c')
  block_lt : ∀ {b c : BlockIndex}, β b = some c → c < g'.blockCount
  surj : ∀ {c : BlockIndex}, c < g'.blockCount → ∃ b, β b = some c
  entry : β 0 = some 0
  successors : ∀ {b c : BlockIndex}, β b = some c →
    (exits g s b).map β = (g'.successors c).map some
  isLoop : ∀ {b c : BlockIndex} {blk blk' : Block}, β b = some c → g.blocks[b]? = some blk →
    g'.blocks[c]? = some blk' → blk'.isLoop = blk.isLoop

namespace Thinned

variable {g g' : Graph} {s : Liveness} {β : BlockIndex → Option BlockIndex}
  (h : Thinned g s g' β) {b c t x y b' c' t' x' y' : BlockIndex}

include h

theorem survives (hb : β b = some c) : Survives g s b := by
  rw [← h.isSome_iff, hb, Option.isSome_some]

theorem exists_of_survives (hb : Survives g s b) : ∃ c, β b = some c :=
  Option.isSome_iff_exists.mp (h.isSome_iff.mpr hb)

theorem le_iff (hb : β b = some c) (hb' : β b' = some c') : b ≤ b' ↔ c ≤ c' := by
  rw [← Nat.not_lt, ← Nat.not_lt, h.lt_iff hb' hb]

theorem inj (hb : β b = some c) (hb' : β b' = some c) : b = b' := by
  have hle := (h.le_iff hb hb').mpr (Nat.le_refl c)
  have hge := (h.le_iff hb' hb).mpr (Nat.le_refl c)
  exact Nat.le_antisymm hle hge

/-- The edges of the remaining graph are the exits. -/
theorem arc_iff (hb : β b = some c) (ht : β t = some t') : g'.Arc c t' ↔ t ∈ exits g s b := by
  have hmem : some t' ∈ (g'.successors c).map some ↔ t' ∈ g'.successors c := by simp
  rw [Graph.Arc, ← hmem, ← h.successors hb, List.mem_map]
  constructor
  · rintro ⟨d, hd, heq⟩
    exact h.inj heq ht ▸ hd
  · exact fun hmem ↦ ⟨t, hmem, ht⟩

theorem count_successors (hb : β b = some c) (ht : β t = some t') :
    (g'.successors c).count t' = (exits g s b).count t :=
  count_of_map_eq (h.successors hb) ht fun ht' ↦ h.inj ht' ht

theorem exists_of_arc (harc : g'.Arc c t') : ∃ b t, β b = some c ∧ β t = some t' ∧
    t ∈ exits g s b := by
  obtain ⟨b, hb⟩ := h.surj (h.sound.arc_lt harc).1
  obtain ⟨t, ht⟩ := h.surj (h.sound.arc_lt harc).2
  exact ⟨b, t, hb, ht, (h.arc_iff hb ht).mp harc⟩

theorem leads_of_leadsOn (hx : β x = some x') (hleads : LeadsOn g s x y) :
    ∃ y', β y = some y' ∧ g'.Leads x' y' := by
  induction hleads with
  | refl => exact ⟨x', hx, .refl⟩
  | tail _ hexit ih =>
    obtain ⟨c, hc, hleads⟩ := ih
    obtain ⟨t', ht⟩ := h.exists_of_survives ((h.survives hc).exit hexit.1 hexit.2)
    exact ⟨t', ht, hleads.tail ⟨(h.arc_iff hc ht).mpr hexit.2, (h.lt_iff hc ht).mp hexit.1⟩⟩

private theorem leadsOn_of_leads (hx : β x = some x') (hleads : g'.Leads x' y') :
    ∃ y, β y = some y' ∧ LeadsOn g s x y := by
  induction hleads with
  | refl => exact ⟨x, hx, .refl⟩
  | tail _ hrise ih =>
    obtain ⟨b, hb, hleads⟩ := ih
    obtain ⟨t, ht⟩ := h.surj (h.sound.arc_lt hrise.1).2
    exact ⟨t, ht, hleads.tail ⟨(h.lt_iff hb ht).mpr hrise.2, (h.arc_iff hb ht).mp hrise.1⟩⟩

variable (hA : Analysed g s)

include hA

private theorem leads_iff (hx : β x = some x') (hy : β y = some y') (hsolid : s.Solid y) :
    g'.Leads x' y' ↔ g.Leads x y := by
  constructor
  · intro hleads
    obtain ⟨z, hz, hon⟩ := h.leadsOn_of_leads hx hleads
    rw [h.inj hy hz]
    exact (hA.leads_of_leadsOn (hA.survives_lt (h.survives hx)) hon).2
  · intro hleads
    obtain ⟨z, hz, hon⟩ := h.leads_of_leadsOn hx (hA.leadsOn_of_solid hleads hsolid)
    rw [hy] at hz
    cases hz
    exact hon

private theorem onLeft {u u' : BlockIndex} (hu : β u = some u') (hsolid : s.Solid u)
    (hc : s.controlOf c = .stays) (hc' : β c = some c') (hx : β x = some x')
    (hleft : g.OnLeft u x c) : g'.OnLeft u' x' c' := by
  have hxlt := hA.survives_lt (h.survives hx)
  induction x, hxlt using Graph.later_induction generalizing x' with
  | later x hxlt ih =>
    cases hleft with
    | here hleads =>
      cases hc'.symm.trans hx
      exact .here ((h.leads_iff hA hx hu hsolid).mpr hleads)
    | @step _ d _ pre post hsplit hlt hleads hfirst hon =>
      have harc : g.Arc x d := by rw [Graph.Arc, hsplit]; simp
      rcases hA.exits_cases hxlt with ⟨t, heq, hxt, htlt, -, -, harcs⟩ | ⟨heq, -⟩
      · -- all ways lead to the target of a rewritten jump
        have hon' := hA.onLeft_of_passes hc hon (hA.sound.target_lt harc) (harcs d harc)
        have hlead : g.Leads t u := hon'.leads
        obtain ⟨t', ht⟩ := h.exists_of_survives ((h.survives hx).exit hxt (by rw [heq]; simp))
        have hsucc : g'.successors x' = [] ++ t' :: [] := by
          have hmap := h.successors hx
          rw [heq, List.map_singleton, ht, eq_comm, List.map_eq_singleton_iff] at hmap
          obtain ⟨t'', hsucc, heq⟩ := hmap
          cases heq
          exact hsucc
        exact .step hsucc ((h.lt_iff hx ht).mp hxt) ((h.leads_iff hA ht hu hsolid).mpr hlead)
          (by simp) (ih t htlt hxt ht hon')
      · have hmap := h.successors hx
        rw [heq, hsplit, List.map_append, List.map_cons, eq_comm, List.map_eq_append_iff] at hmap
        obtain ⟨pre', rest', hsplit', hpre, hrest⟩ := hmap
        obtain ⟨d', post', rfl, hd, -⟩ := List.map_eq_cons_iff.mp hrest
        refine .step hsplit' ((h.lt_iff hx hd.symm).mp hlt)
          ((h.leads_iff hA hd.symm hu hsolid).mpr hleads) (fun e' he' hlt' hleads' ↦ ?_)
          (ih d (hA.sound.target_lt harc) hlt hd.symm hon)
        have hmem : some e' ∈ pre.map β := hpre ▸ List.mem_map_of_mem he'
        obtain ⟨e, he, heq'⟩ := List.mem_map.mp hmem
        exact hfirst e he ((h.lt_iff hx heq').mpr hlt')
          ((h.leads_iff hA heq' hu hsolid).mp hleads')

/-- Every block but the entry is still entered. -/
theorem no_predecessors_iff (hb : β b = some c) : g'.predecessors c = [] ↔ b = 0 := by
  constructor
  · intro hnil
    cases h.survives hb with
    | entry => rfl
    | @exit p _ hp hlt ht =>
      obtain ⟨p', hp'⟩ := h.exists_of_survives hp
      have hmem := h.sound.mem_predecessors_iff.mpr ((h.arc_iff hp' hb).mpr ht)
      rw [hnil] at hmem
      cases hmem
  · rintro rfl
    rw [List.eq_nil_iff_forall_not_mem]
    intro p' hp'
    obtain ⟨p, b', hp, hb', hexit⟩ := h.exists_of_arc (h.sound.mem_predecessors_iff.mp hp')
    cases h.inj hb hb'
    exact Graph.no_arc_to_entry hA.sound hA.fit.wellFormed p
      (hA.arc_of_exit_le (hA.survives_lt (h.survives hp)) hexit (Nat.zero_le p))

/-- A block at which control does not come out is entered at most as often as before. -/
theorem length_predecessors_le (hb : β b = some c) (hout : ¬Outlet g s.isLive b) :
    (g'.predecessors c).length ≤ (g.predecessors b).length := by
  suffices hsub : (g'.predecessors c).Subperm
      ((g.predecessors b).map fun p ↦ (β p).getD noHandle) by
    have hle := hsub.length_le
    rwa [List.length_map] at hle
  refine List.subperm_ext_iff.mpr fun p' hp' ↦ ?_
  obtain ⟨p, b', hp, hb', -⟩ := h.exists_of_arc (h.sound.mem_predecessors_iff.mp hp')
  cases h.inj hb hb'
  calc (g'.predecessors c).count p'
      = (exits g s p).count b := by rw [h.sound.count_predecessors_eq, h.count_successors hp hb]
    _ ≤ (g.successors p).count b := hA.count_exits_le (hA.survives_lt (h.survives hp)) hout
    _ = (g.predecessors b).count p := (hA.sound.count_predecessors_eq p b).symm
    _ ≤ ((g.predecessors b).map fun p ↦ (β p).getD noHandle).count ((β p).getD noHandle) :=
      List.count_le_count_map (f := fun p ↦ (β p).getD noHandle)
    _ = _ := by rw [hp, Option.getD_some]

/-- A block that is needed as it is keeps the edges into it, each in a slot of its own. -/
theorem exists_slot (hb : β b = some c) (hstays : s.controlOf b = .stays) {k : Nat}
    {p : BlockIndex} (hp : (g.predecessors b)[k]? = some p) :
    ∃ p' : BlockIndex, ∃ r q : Nat, β p = some p' ∧ (g.slots b p)[r]? = some k ∧
      (g'.slots c p')[r]? = some q := by
  have harc : g.Arc p b := hA.sound.mem_predecessors_iff.mp (List.mem_of_getElem? hp)
  obtain ⟨hsolid, hexits⟩ := hA.exits_of_arc harc hstays
  obtain ⟨p', hp'⟩ := h.exists_of_survives (hA.survives_of_solid (hA.sound.arc_lt harc).1 hsolid)
  have hslot := getElem?_positionsOf.mpr ⟨hp, rfl⟩
  have hlen : (g'.slots c p').length = (g.slots b p).length := by
    rw [Graph.length_slots h.sound, Graph.length_slots hA.sound, h.count_successors hp' hb, hexits]
  have hlt : ((g.predecessors b).take k).count p < (g'.slots c p').length := by
    rw [hlen]
    exact (List.getElem?_eq_some_iff.mp hslot).1
  exact ⟨p', _, _, hp', hslot, List.getElem?_eq_getElem hlt⟩

omit hA in
/-- Every block of the remaining graph can be reached. -/
theorem reached : ∀ c < g'.blockCount, c ∈ g'.discovery.order := by
  intro c hc
  obtain ⟨b, hb⟩ := h.surj hc
  obtain ⟨c', hc', hleads⟩ := h.leads_of_leadsOn h.entry (survives_iff.mp (h.survives hb))
  cases hb.symm.trans hc'
  rw [Graph.mem_discovery_iff h.sound (h.block_lt h.entry)]
  exact Relation.ReflTransGen.mono (fun _ _ hrise ↦ hrise.1) _ _ hleads

/-- What is left of a graph in reverse postorder is in reverse postorder. -/
theorem inReversePostorder : g'.InReversePostorder := by
  refine Graph.inReversePostorder_of_onLeft h.sound h.reached fun u' c' harc hle ↦ ?_
  obtain ⟨u, c, hu, hc, hexit⟩ := h.exists_of_arc harc
  have hle' := (h.le_iff hc hu).mpr hle
  have harc' := hA.arc_of_exit_le (hA.survives_lt (h.survives hu)) hexit hle'
  have hstays := hA.stays_of_arc_le harc' hle'
  exact h.onLeft hA hu (hA.exits_of_arc harc' hstays).1 hstays hc h.entry
    (hA.ordered.onLeft hA.sound harc' hle')

/-- Loop blocks stay the targets of backedges. -/
theorem loopsMarked : g'.LoopsMarked := by
  have hord := h.inReversePostorder hA
  intro c blk' hblk'
  obtain ⟨b, hb⟩ := h.surj (Graph.lt_blockCount hblk')
  obtain ⟨blk, hblk⟩ := Graph.exists_block (hA.survives_lt (h.survives hb))
  rw [h.isLoop hb hblk hblk', hA.fit.loopsMarked hblk]
  constructor
  · rintro ⟨u, hu⟩
    have harc := Graph.arc_of_backedge hA.sound hu
    have hle := (hA.ordered u b harc).mp hu
    obtain ⟨hsolid, hexits⟩ := hA.exits_of_arc harc (hA.stays_of_arc_le harc hle)
    obtain ⟨u', hu'⟩ := h.exists_of_survives
      (hA.survives_of_solid (hA.sound.arc_lt harc).1 hsolid)
    have harc' := (h.arc_iff hu' hb).mpr (by rw [hexits]; exact harc)
    exact ⟨u', (hord u' c harc').mpr ((h.le_iff hb hu').mp hle)⟩
  · rintro ⟨u', hu'⟩
    have harc' := Graph.arc_of_backedge h.sound hu'
    obtain ⟨u, b', hu, hb', hexit⟩ := h.exists_of_arc harc'
    cases h.inj hb hb'
    have hle := (h.le_iff hb hu).mpr ((hord u' c harc').mp hu')
    have harc := hA.arc_of_exit_le (hA.survives_lt (h.survives hu)) hexit hle
    exact ⟨u, (hA.ordered u b harc).mpr hle⟩

end Thinned

end Liveness

end Flowgraph
