import Flowgraph.Proofs.Liveness.Fixpoint

/-!
# Bypassed blocks

What the analysis of a graph is good for, once every block is stable. The operations that are live
contain all that are required and are closed under inputs. The control state of a block that is
not needed names the block at which control comes out again: between the two, control passes
through blocks without live operations only, and always forward, so that it does come out. The
block where it comes out is a merge without live phis, so that it does not matter over which edge
it is entered.
-/

namespace Flowgraph

namespace Control

theorem join_eq_unreachable {c d : Control} :
    c.join d = unreachable ↔ c = unreachable ∧ d = unreachable := by
  cases c <;> cases d <;> simp only [join, reduceCtorEq, and_self, and_false, false_and]
  split <;> simp

private theorem join_eq_passes {c d : Control} {t : BlockIndex} (h : c.join d = passes t) :
    (c = unreachable ∨ c = passes t) ∧ (d = unreachable ∨ d = passes t) := by
  cases c <;> cases d <;> simp only [join, reduceCtorEq, passes.injEq] at h
  · simp [h]
  · simp [h]
  · split at h <;> simp_all

section Fold

variable {f : BlockIndex → Control}

theorem foldl_join_eq_unreachable : ∀ {l : List BlockIndex} {c : Control},
    l.foldl (fun c t ↦ c.join (f t)) c = unreachable →
      c = unreachable ∧ ∀ t ∈ l, f t = unreachable
  | [], c, h => ⟨h, by simp⟩
  | t :: l, c, h => by
    rw [List.foldl_cons] at h
    obtain ⟨hjoin, hl⟩ := foldl_join_eq_unreachable h
    obtain ⟨hc, ht⟩ := join_eq_unreachable.mp hjoin
    exact ⟨hc, List.forall_mem_cons.mpr ⟨ht, hl⟩⟩

theorem foldl_join_eq_passes {t : BlockIndex} : ∀ {l : List BlockIndex} {c : Control},
    l.foldl (fun c t ↦ c.join (f t)) c = passes t →
      (c = unreachable ∨ c = passes t) ∧ ∀ u ∈ l, f u = unreachable ∨ f u = passes t
  | [], c, h => ⟨Or.inr h, by simp⟩
  | u :: l, c, h => by
    rw [List.foldl_cons] at h
    obtain ⟨hjoin, hl⟩ := foldl_join_eq_passes h
    have hboth : (c = unreachable ∨ c = passes t) ∧ (f u = unreachable ∨ f u = passes t) := by
      rcases hjoin with hjoin | hjoin
      · exact (join_eq_unreachable.mp hjoin).imp Or.inl Or.inl
      · exact join_eq_passes hjoin
    exact ⟨hboth.1, List.forall_mem_cons.mpr ⟨hboth.2, hl⟩⟩

end Fold

/-- The least upper bound of the states of the listed blocks. -/
def joinOf (F : BlockIndex → Control) (targets : List BlockIndex) : Control :=
  targets.foldl (fun c t ↦ c.join (F t)) .unreachable

private theorem join_self (c : Control) : c.join c = c := by
  cases c <;> simp [join]

theorem joinOf_congr {F F' : BlockIndex → Control} {l : List BlockIndex}
    (h : ∀ t ∈ l, F t = F' t) : joinOf F l = joinOf F' l :=
  List.foldl_ext _ _ _ fun c t ht ↦ by rw [h t ht]

theorem joinOf_eq_of_forall {F : BlockIndex → Control} {l : List BlockIndex} {c : Control}
    (hne : l ≠ []) (h : ∀ t ∈ l, F t = c) : joinOf F l = c := by
  have hrest : ∀ {l : List BlockIndex}, (∀ t ∈ l, F t = c) →
      l.foldl (fun c t ↦ c.join (F t)) c = c := by
    intro l hl
    induction l with
    | nil => rfl
    | cons t l ih =>
      rw [List.forall_mem_cons] at hl
      rw [List.foldl_cons, hl.1, join_self, ih hl.2]
  cases l with
  | nil => exact absurd rfl hne
  | cons t l =>
    rw [List.forall_mem_cons] at h
    rw [joinOf, List.foldl_cons, h.1]
    cases c <;> exact hrest h.2

end Control

/-- What holds of a block once it holds of all blocks behind it holds of every block. -/
@[elab_as_elim]
theorem Graph.later_induction {g : Graph} {motive : (b : BlockIndex) → b < g.blockCount → Prop}
    (later : ∀ b hb, (∀ c (hc : c < g.blockCount), b < c → motive c hc) → motive b hb) :
    ∀ b hb, motive b hb
  | b, hb => later b hb fun c hc _ ↦ later_induction later c hc
termination_by b => g.blockCount - b

namespace Liveness

/-- A block is needed as a loop, the place where control comes out, or as its front says. -/
theorem settle_cases (b : BlockIndex) (blk : Block) (control : Control) (livePhi : Bool) :
    settle b blk control livePhi = .stays ∨
      (settle b blk control livePhi = .passes b ∧ blk.isMerge = true ∧ livePhi = false) ∨
      settle b blk control livePhi = control := by
  rw [settle]
  split
  · exact Or.inl rfl
  · split
    · rename_i hmerge
      rw [Bool.and_eq_true, Bool.and_eq_true, Bool.not_eq_true'] at hmerge
      exact Or.inr (Or.inl ⟨rfl, hmerge.1⟩)
    · exact Or.inr (Or.inr rfl)

/-- Block `b` has the control state that follows from those of its successors, if the operations
of `L` are live. -/
def Settled (g : Graph) (L : OpIndex → Bool) (F : BlockIndex → Control) (b : BlockIndex) : Prop :=
  ∀ {blk : Block}, g.blocks[b]? = some blk →
    F b = settle b blk
      (if (g.span b).toList.any L then .stays else .joinOf F (g.successors b))
      ((g.span b).toList.any fun i ↦ g.ops[i]?.any Operation.isPhi && L i)

/-- Control can come out at block `t`. -/
structure Outlet (g : Graph) (L : OpIndex → Bool) (t : BlockIndex) : Prop where
  merge : ∀ {blk : Block}, g.blocks[t]? = some blk → blk.isMerge = true
  phis : ∀ i ∈ (g.span t).toList, (g.ops[i]?.any Operation.isPhi && L i) = false

/-- A terminator that is not required is a jump, and leads somewhere. -/
theorem successors_ne_nil {op : Operation} (hend : op.isTerminator = true)
    (hreq : op.isRequired = false) : op.isJump = true ∧ op.successors ≠ [] := by
  obtain ⟨action, _⟩ := op
  cases action <;>
    simp_all [Operation.isTerminator, Operation.isRequired, Operation.isJump, Operation.successors]

/-! ## Control states that follow from each other

The state of a block is determined by those of its successors: it stays where something is live or
the ways on part, and passes on otherwise. Control only passes forward, so a block that passes on to
`t` has a path to `t` through blocks that pass on to `t` as well. -/

/-- A fit graph in reverse postorder, and control states that follow from each other when the
operations of `L` are live, the required ones among them. -/
structure Determined (g : Graph) (L : OpIndex → Bool) (F : BlockIndex → Control) : Prop where
  sound : g.Sound
  fit : g.Fit
  ordered : g.InReversePostorder
  required : ∀ {i : OpIndex} {op : Operation}, g.ops[i]? = some op → op.isRequired = true →
    L i = true
  settled : ∀ {b}, b < g.blockCount → Settled g L F b

namespace Determined

variable {g : Graph} {L : OpIndex → Bool} {F : BlockIndex → Control} (h : Determined g L F)

include h

theorem exists_terminator {b : BlockIndex} (hb : b < g.blockCount) :
    ∃ i op, g.terminator? b = some i ∧ i ∈ (g.span b).toList ∧ g.ops[i]? = some op ∧
      op.isTerminator = true := by
  obtain ⟨blk, hblk⟩ := Graph.exists_block hb
  obtain ⟨i, op, hi, hop, hend⟩ := (h.fit.wellFormed.terminated hblk).exists_last
  have hterm : g.terminator? b = some i := by rw [Graph.terminator?, Graph.span_of_block hblk, hi]
  exact ⟨i, op, hterm, Span.last?_mem hterm, hop, hend⟩

/-- A block without live operations ends in a jump. -/
theorem isJump_of_dead {b : BlockIndex} {i : OpIndex} {op : Operation}
    (hdead : ∀ i ∈ (g.span b).toList, L i = false) (hi : i ∈ (g.span b).toList)
    (hop : g.ops[i]? = some op) (hend : op.isTerminator = true) :
    op.isJump = true ∧ op.successors ≠ [] := by
  refine successors_ne_nil hend ?_
  rw [← Bool.not_eq_true]
  exact fun hreq ↦ by simpa [hdead i hi] using h.required hop hreq

/-- A block without live operations leads somewhere. -/
theorem exists_arc_of_dead {b : BlockIndex} (hb : b < g.blockCount)
    (hdead : ∀ i ∈ (g.span b).toList, L i = false) : ∃ t, g.Arc b t := by
  obtain ⟨i, op, hterm, hi, hop, hend⟩ := h.exists_terminator hb
  obtain ⟨-, hne⟩ := h.isJump_of_dead hdead hi hop hend
  rw [← Graph.successors_of_terminator hterm hop] at hne
  exact List.exists_mem_of_ne_nil _ hne

theorem control_of_isLoop {b : BlockIndex} {blk : Block} (hblk : g.blocks[b]? = some blk)
    (hloop : blk.isLoop = true) : F b = .stays := by
  rw [h.settled (Graph.lt_blockCount hblk) hblk, settle_of_isLoop hloop]

/-- Control does not pass through a loop. -/
theorem isLoop_of_passes {b t : BlockIndex} {blk : Block} (hblk : g.blocks[b]? = some blk)
    (hpasses : F b = .passes t) : blk.isLoop = false := by
  rw [← Bool.not_eq_true]
  intro hloop
  rw [h.control_of_isLoop hblk hloop] at hpasses
  cases hpasses

/-- An edge to a block that is not needed goes forward. -/
theorem lt_of_arc {b c t : BlockIndex} (harc : g.Arc b c) (hc : F c = .passes t) : b < c := by
  by_contra hle
  obtain ⟨blk, hblk⟩ := Graph.exists_block (h.sound.arc_lt harc).2
  have hloop := isLoop_of_arc h.fit h.ordered hblk harc (Nat.not_lt.mp hle)
  exact absurd hloop (Bool.not_eq_true _ ▸ h.isLoop_of_passes hblk hc)

/-- Control is known to get somewhere from every block. -/
theorem ne_unreachable {b : BlockIndex} (hb : b < g.blockCount) : F b ≠ .unreachable := by
  induction b, hb using Graph.later_induction with
  | later b hb ih =>
    obtain ⟨blk, hblk⟩ := Graph.exists_block hb
    have hfront : (if (g.span b).toList.any L then .stays else .joinOf F (g.successors b))
        ≠ Control.unreachable := by
      split
      · nofun
      · rename_i hdead
        rw [Bool.not_eq_true, List.any_eq_false] at hdead
        obtain ⟨t, ht⟩ := h.exists_arc_of_dead hb fun i hi ↦ by simpa using hdead i hi
        intro hunreach
        have hcontrol := (Control.foldl_join_eq_unreachable hunreach).2 t ht
        obtain ⟨blk', hblk'⟩ := Graph.exists_block (h.sound.target_lt ht)
        by_cases hle : t ≤ b
        · rw [h.control_of_isLoop hblk' (isLoop_of_arc h.fit h.ordered hblk' ht hle)] at hcontrol
          cases hcontrol
        · exact ih t (h.sound.target_lt ht) (Nat.lt_of_not_le hle) hcontrol
    rw [h.settled hb hblk]
    rcases settle_cases b blk (if (g.span b).toList.any L then .stays
      else .joinOf F (g.successors b)) ((g.span b).toList.any fun i ↦
        g.ops[i]?.any Operation.isPhi && L i) with heq | ⟨heq, -⟩ | heq
    · rw [heq]
      nofun
    · rw [heq]
      nofun
    · rw [heq]
      exact hfront

/-- A block that is not needed is the merge at which control comes out, or holds nothing live and
leads only to blocks that are not needed either. -/
theorem eq_passes {b t : BlockIndex} (hb : b < g.blockCount) (hpasses : F b = .passes t) :
    (b = t ∧ Outlet g L b) ∨
      (∀ i ∈ (g.span b).toList, L i = false) ∧ ∀ c, g.Arc b c → b < c ∧ F c = .passes t := by
  obtain ⟨blk, hblk⟩ := Graph.exists_block hb
  rw [h.settled hb hblk] at hpasses
  rcases settle_cases b blk (if (g.span b).toList.any L then .stays
    else .joinOf F (g.successors b)) ((g.span b).toList.any fun i ↦
      g.ops[i]?.any Operation.isPhi && L i) with heq | ⟨heq, hmerge, hphi⟩ | heq
  · rw [heq] at hpasses
    cases hpasses
  · rw [heq] at hpasses
    cases hpasses
    rw [List.any_eq_false] at hphi
    refine Or.inl ⟨rfl, fun hblk' ↦ ?_, fun i hi ↦ by simpa using hphi i hi⟩
    cases hblk.symm.trans hblk'
    exact hmerge
  · rw [heq] at hpasses
    split at hpasses
    · cases hpasses
    · rename_i hdead
      rw [Bool.not_eq_true, List.any_eq_false] at hdead
      refine Or.inr ⟨fun i hi ↦ by simpa using hdead i hi, fun c harc ↦ ?_⟩
      have hc : F c = .passes t :=
        ((Control.foldl_join_eq_passes hpasses).2 c harc).resolve_left
          (h.ne_unreachable (h.sound.target_lt harc))
      exact ⟨h.lt_of_arc harc hc, hc⟩

/-- Induction along the ways on which control passes through blocks to `t`, from their end on. -/
@[elab_as_elim]
theorem passes_induction {t : BlockIndex}
    {motive : (b : BlockIndex) → b < g.blockCount → F b = .passes t → Prop}
    (outlet : ∀ ht hpasses, Outlet g L t → motive t ht hpasses)
    (through : ∀ {b c} hb hpasses, (∀ i ∈ (g.span b).toList, L i = false) → g.Arc b c →
      (∀ d, g.Arc b d → b < d ∧ ∃ hd hpasses, motive d hd hpasses) → motive b hb hpasses)
    (b : BlockIndex) (hb : b < g.blockCount) (hpasses : F b = .passes t) : motive b hb hpasses := by
  induction b, hb using Graph.later_induction with
  | later b hb ih =>
    rcases h.eq_passes hb hpasses with ⟨rfl, hout⟩ | ⟨hdead, harcs⟩
    · exact outlet hb hpasses hout
    · obtain ⟨c, hc⟩ := h.exists_arc_of_dead hb hdead
      refine through hb hpasses hdead hc fun d hd ↦ ?_
      obtain ⟨hlt, hcontrol⟩ := harcs d hd
      exact ⟨hlt, h.sound.target_lt hd, hcontrol, ih d (h.sound.target_lt hd) hlt hcontrol⟩

/-- The block at which control comes out is not passed over, and control can come out there. -/
theorem target_of_passes {b t : BlockIndex} (hb : b < g.blockCount) (hpasses : F b = .passes t) :
    b ≤ t ∧ t < g.blockCount ∧ Outlet g L t := by
  induction b, hb, hpasses using h.passes_induction with
  | outlet ht _ hout => exact ⟨Nat.le_refl t, ht, hout⟩
  | @through b c _ _ _ hc hnext =>
    obtain ⟨hlt, -, -, hle, hout⟩ := hnext c hc
    exact ⟨Nat.le_trans (Nat.le_of_lt hlt) hle, hout⟩

/-- Control comes out where it comes out. -/
theorem passes_target {b t : BlockIndex} (hb : b < g.blockCount) (hpasses : F b = .passes t) :
    F t = .passes t := by
  induction b, hb, hpasses using h.passes_induction with
  | outlet _ hpasses _ => exact hpasses
  | @through b c _ _ _ hc hnext =>
    obtain ⟨-, -, -, htarget⟩ := hnext c hc
    exact htarget

end Determined

/-! ## What the analysis has found

`Analysed` collects what later modules use of the analysis. They do not know how it was found. -/

/-- A fit graph in reverse postorder, and live operations, control states and rewritten jumps that
go together. -/
structure Analysed (g : Graph) (s : Liveness) : Prop where
  sound : g.Sound
  fit : g.Fit
  ordered : g.InReversePostorder
  sized : Sized g s
  isLive_of_required : ∀ {i : OpIndex} {op : Operation}, g.ops[i]? = some op →
    op.isRequired = true → s.isLive i = true
  isLive_of_input : ∀ {i j : OpIndex} {op : Operation}, g.ops[i]? = some op →
    s.isLive i = true → j ∈ op.inputs → s.isLive j = true
  settled : ∀ {b : BlockIndex}, b < g.blockCount → Settled g s.isLive s.controlOf b
  /-- A jump is kept as it is, or it is rewritten and all its targets lead to one block. -/
  jump_cases : ∀ {b : BlockIndex} {i : OpIndex} {op : Operation}, i ∈ (g.span b).toList →
    g.ops[i]? = some op → op.isJump = true →
      (s.isLive i = true ∧ s.rewrites.get? i = none) ∨
        ∃ t, s.rewrites.get? i = some t ∧ ∀ c, g.Arc b c → s.controlOf c = .passes t

namespace Analysed

variable {g : Graph} {s : Liveness} (h : Analysed g s)

include h

theorem determined : Determined g s.isLive s.controlOf :=
  ⟨h.sound, h.fit, h.ordered, h.isLive_of_required, h.settled⟩

/-- A rewritten jump leads to a block without live phis. -/
theorem target_of_rewrite {b t : BlockIndex} {i : OpIndex} {op : Operation}
    (hi : i ∈ (g.span b).toList) (hop : g.ops[i]? = some op) (hjump : op.isJump = true)
    (ht : s.rewrites.get? i = some t) :
    (∀ c, g.Arc b c → s.controlOf c = .passes t) ∧ t < g.blockCount ∧
      ∀ i ∈ (g.span t).toList, isLivePhi g s i = false := by
  rcases h.jump_cases hi hop hjump with ⟨-, hnone⟩ | ⟨t', ht', harcs⟩
  · rw [hnone] at ht
    cases ht
  · cases ht'.symm.trans ht
    have hend := Operation.isTerminator_of_isJump hjump
    obtain ⟨-, hne⟩ := successors_ne_nil hend (isRequired_of_isJump hjump)
    rw [← Graph.successors_of_terminator (h.sound.ends hi hop hend).1 hop] at hne
    obtain ⟨c, hc⟩ := List.exists_mem_of_ne_nil _ hne
    obtain ⟨-, htlt, hout⟩ := h.determined.target_of_passes (h.sound.target_lt hc) (harcs c hc)
    exact ⟨harcs, htlt, hout.phis⟩

end Analysed

/-- What the analysis has found when it is done: walking any block again would change nothing. -/
structure Stabilized (g : Graph) (s : Liveness) : Prop extends Analysed g s where
  stable : ∀ {b : BlockIndex}, b < g.blockCount → Stable g s b

theorem Stabilized.of_stable {g : Graph} {s : Liveness} (hg : g.Sound) (hfit : g.Fit)
    (hord : g.InReversePostorder) (hsized : Sized g s)
    (hstable : ∀ {b : BlockIndex}, b < g.blockCount → Stable g s b) : Stabilized g s := by
  -- every operation lies in a block, and what the walk left there holds of it
  have hagrees : ∀ {i op}, g.ops[i]? = some op → ∃ b, Agrees g s (controlAfter g s b)
      (g.span b).toList ∧ i ∈ (g.span b).toList := fun hop ↦ by
    obtain ⟨b, hb⟩ := hg.exists_owner (Graph.lt_opCount hop)
    exact ⟨b, (hstable (Graph.lt_blockCount_of_mem_span hb)).agrees, hb⟩
  have hrequired : ∀ {i : OpIndex} {op : Operation}, g.ops[i]? = some op →
      op.isRequired = true → s.isLive i = true := fun hop hreq ↦ by
    obtain ⟨b, hagrees, hb⟩ := hagrees hop
    exact hagrees.required hb hop hreq
  have hD : Determined g s.isLive s.controlOf :=
    ⟨hg, hfit, hord, hrequired, fun hb _ hblk ↦ (hstable hb).control hblk⟩
  refine ⟨⟨hg, hfit, hord, hsized, hrequired, fun hop hlive hj ↦ ?_, hD.settled,
    fun {b i op} hi hop hjump ↦ ?_⟩, hstable⟩
  · obtain ⟨b, hagrees, hb⟩ := hagrees hop
    exact (hagrees.inputs hb hop hlive).2 _ hj
  have hagrees := (hstable (Graph.lt_blockCount_of_mem_span hi)).agrees
  cases hafter : controlAfter g s b with
  | stays => exact Or.inl (hagrees.stays hi hop hjump hafter)
  | passes t =>
    refine Or.inr ⟨t, hagrees.passes hi hop hjump hafter, fun c harc ↦ ?_⟩
    exact ((Control.foldl_join_eq_passes hafter).2 c harc).resolve_left
      (hD.ne_unreachable (hg.target_lt harc))
  | unreachable =>
    have hend := Operation.isTerminator_of_isJump hjump
    obtain ⟨-, hne⟩ := successors_ne_nil hend (isRequired_of_isJump hjump)
    have hterm := (hg.ends hi hop hend).1
    rw [← Graph.successors_of_terminator hterm hop] at hne
    obtain ⟨c, hc⟩ := List.exists_mem_of_ne_nil _ hne
    exact absurd ((Control.foldl_join_eq_unreachable hafter).2 c hc)
      (hD.ne_unreachable (hg.target_lt hc))

theorem stabilized_of_liveness {g : Graph} {s : Liveness} (hbuilt : g.Built)
    (hfit : g.problems true = []) (h : g.liveness = .ok s) : Stabilized g s := by
  have hg := hbuilt.sound
  obtain ⟨hfit, hord⟩ := (Graph.problems_eq_nil hg true).mp hfit
  obtain ⟨hsized, hstable⟩ := stable_of_liveness hg hfit (hord rfl) h
  exact .of_stable hg hfit (hord rfl) hsized hstable

theorem analysed_of_liveness {g : Graph} {s : Liveness} (hbuilt : g.Built)
    (hfit : g.problems true = []) (h : g.liveness = .ok s) : Analysed g s :=
  (stabilized_of_liveness hbuilt hfit h).toAnalysed

/-- What the analysis finds live had not been removed. -/
theorem Stabilized.not_dead {g : Graph} {s : Liveness} (h : Stabilized g s) {i : OpIndex}
    {op : Operation} (hop : g.ops[i]? = some op) (hlive : s.isLive i = true) :
    op.action ≠ .dead := by
  obtain ⟨b, hb⟩ := h.sound.exists_owner (Graph.lt_opCount hop)
  exact ((h.stable (Graph.lt_blockCount_of_mem_span hb)).agrees.inputs hb hop hlive).1

end Liveness

end Flowgraph
