import Flowgraph.Proofs.Liveness.Bypass

/-!
# The least solution of the liveness rules

The rules of the analysis can be stated without a walk. A set of operations determines the control
state of every block, from the last block down; and the set is closed under the rules if it holds
the required operations, the inputs of its members, and the jumps that cannot be rewritten under
the control states that it determines. The analysis finds the least closed set.

## Why nothing is marked too early

A merge takes control out at itself as soon as one of its operations is live, so that the control
states do not grow with the set in any plain sense. What holds is weaker: if the larger set lets
control pass through a block to `t`, then the smaller one gives that block and `t` the same state,
and lets control pass through both. This also holds of the states in the middle of a walk, at the
blocks that are not pending, since control passes forward only and loops stop it. A jump that the
walk finds needed is needed under every closed set.
-/

namespace Flowgraph

namespace Graph

/-! ## The rules

A set of operations determines the control states, from the last block to the first, as if these
operations were the live ones. The rules then say which operations have to be in the set. -/

/-- The control state of a block if the operations of `L` are live. An edge that does not go
forward leads to a loop. -/
def entryControl (g : Graph) (L : OpIndex → Bool) (b : BlockIndex) : Control :=
  match _h : g.blocks[b]? with
  | none => .unreachable
  | some blk =>
    if blk.isLoop then .stays
    else
      let front :=
        if blk.span.toList.any L then .stays
        else Control.joinOf (fun t ↦ if _h' : b < t then g.entryControl L t else .stays)
          (g.successors b)
      if blk.isMerge && !blk.span.toList.any (fun i ↦ g.ops[i]?.any Operation.isPhi && L i) then
        match front with
        | .passes t => .passes t
        | _ => .passes b
      else front
termination_by g.blockCount - b
decreasing_by exact Nat.sub_lt_sub_left (Graph.lt_blockCount _h) _h'

/-- The operations of `L` can be all that are live. -/
structure LiveClosed (g : Graph) (L : OpIndex → Bool) : Prop where
  required : ∀ {i : OpIndex} {op : Operation}, g.ops[i]? = some op → op.isRequired = true →
    L i = true
  inputs : ∀ {i : OpIndex} {op : Operation}, g.ops[i]? = some op → L i = true →
    ∀ j ∈ op.inputs, L j = true
  jumps : ∀ {i : OpIndex} {op : Operation}, g.ops[i]? = some op → op.isJump = true →
    Control.joinOf (g.entryControl L) op.successors = .stays → L i = true

/-- The operations that were not removed earlier, and those that are taken as an input. -/
def wanted (g : Graph) (i : OpIndex) : Bool :=
  g.ops[i]?.any (·.action ≠ .dead) || g.ops.toList.any (·.inputs.contains i)

theorem wanted_of_isJump {g : Graph} {i : OpIndex} {op : Operation} (hop : g.ops[i]? = some op)
    (hjump : op.isJump = true) : g.wanted i = true := by
  have hdead : op.action ≠ .dead := fun hdead ↦ by simp [Operation.isJump, hdead] at hjump
  simp [wanted, hop, hdead]

/-- Whatever the blocks are like, nothing but wanted operations can be needed. -/
theorem liveClosed_wanted (g : Graph) : g.LiveClosed g.wanted where
  required {i op} hop hreq := by
    have : op.action ≠ .dead := fun hdead ↦ by simp [Operation.isRequired, hdead] at hreq
    simp [wanted, hop, this]
  inputs {i op} hop _ j hj := by
    rw [wanted, Bool.or_eq_true, List.any_eq_true]
    exact Or.inr ⟨op, Array.mem_toList_iff.mpr (Array.mem_of_getElem? hop),
      List.contains_iff_mem.mpr hj⟩
  jumps hop hjump _ := wanted_of_isJump hop hjump

theorem exists_user_of_wanted {g : Graph} {i : OpIndex} {op : Operation}
    (hop : g.ops[i]? = some op) (hdead : op.action = .dead) (h : g.wanted i = true) :
    ∃ user ∈ g.ops.toList, i ∈ user.inputs := by
  rw [wanted, hop, Option.any_some, decide_eq_false (not_not.mpr hdead), Bool.false_or,
    List.any_eq_true] at h
  obtain ⟨user, huser, hinput⟩ := h
  exact ⟨user, huser, List.contains_iff_mem.mp hinput⟩

/-- No operation takes the value of one that was removed earlier. -/
def DeadUnused (g : Graph) : Prop :=
  ∀ op ∈ g.ops.toList, ∀ j ∈ op.inputs, ∀ op' ∈ g.ops[j]?, op'.action ≠ .dead

instance (g : Graph) : Decidable g.DeadUnused :=
  inferInstanceAs (Decidable (∀ op ∈ g.ops.toList, ∀ j ∈ op.inputs, ∀ op' ∈ g.ops[j]?,
    op'.action ≠ .dead))

end Graph

namespace Liveness

variable {g : Graph} {L : OpIndex → Bool} {s : Liveness} {b : BlockIndex}

/-! ## Settled control states

The states that a set determines obey the equations of the analysis, and they are the only ones that
do on the blocks from some number on, given what lies behind. -/

private theorem Stable.settled (h : Stable g s b) : Settled g s.isLive s.controlOf b :=
  fun hblk ↦ h.control hblk

theorem settle_eq {blk : Block} (hloop : blk.isLoop = false) (c : Control) (livePhi : Bool) :
    settle b blk c livePhi =
      if blk.isMerge && !livePhi then
        match c with
        | .passes t => .passes t
        | _ => .passes b
      else c := by
  rw [settle, hloop, if_neg (by simp)]
  cases c <;> cases blk.isMerge <;> cases livePhi <;> rfl

/-- A merge without live phis lets control pass through to some block. -/
theorem Settled.exists_passes {F : BlockIndex → Control} (h : Settled g L F b) {blk : Block}
    (hblk : g.blocks[b]? = some blk) (hmerge : blk.isMerge = true)
    (hphis : ∀ i ∈ (g.span b).toList, (g.ops[i]?.any Operation.isPhi && L i) = false) :
    ∃ u, F b = .passes u := by
  have hloop : blk.isLoop = false := by
    have hkind : blk.kind = .merge := by simpa [Block.isMerge] using hmerge
    simp [Block.isLoop, hkind]
  have hnone : ((g.span b).toList.any fun i ↦ g.ops[i]?.any Operation.isPhi && L i) = false := by
    rw [List.any_eq_false]
    exact fun i hi ↦ by simpa using hphis i hi
  rw [h hblk, settle_eq hloop, hmerge, hnone, if_pos (by rfl)]
  split
  · exact ⟨_, rfl⟩
  · exact ⟨_, rfl⟩

/-- Control passes through a block without live operations if it does so behind it. -/
theorem Settled.passes {F : BlockIndex → Control} (h : Settled g L F b) {blk : Block}
    {t : BlockIndex} (hblk : g.blocks[b]? = some blk) (hloop : blk.isLoop = false)
    (hdead : ∀ i ∈ (g.span b).toList, L i = false) (hne : g.successors b ≠ [])
    (harcs : ∀ c, g.Arc b c → F c = .passes t) : F b = .passes t := by
  have hnone : (g.span b).toList.any L = false := by
    rw [List.any_eq_false]
    exact fun i hi ↦ by simp [hdead i hi]
  rw [h hblk, hnone, if_neg (by simp), Control.joinOf_eq_of_forall hne harcs, settle_eq hloop]
  split <;> rfl

/-- There is a reason for control to come out at a block: something is live in it, or the ways on
from it part. -/
private theorem Determined.exists_live_or_stays {F : BlockIndex → Control} (h : Determined g L F)
    (hb : b < g.blockCount) (hself : F b = .passes b) :
    (∃ i ∈ (g.span b).toList, L i = true) ∨ Control.joinOf F (g.successors b) = .stays := by
  obtain ⟨blk, hblk⟩ := Graph.exists_block hb
  by_cases hdead : ∀ i ∈ (g.span b).toList, L i = false
  · right
    obtain ⟨c, hc⟩ := h.exists_arc_of_dead hb hdead
    cases hjoin : Control.joinOf F (g.successors b) with
    | stays => rfl
    | unreachable =>
      exact absurd ((Control.foldl_join_eq_unreachable hjoin).2 c hc)
        (h.ne_unreachable (h.sound.target_lt hc))
    | passes t =>
      have harcs : ∀ c, g.Arc b c → F c = .passes t := fun c hc ↦
        ((Control.foldl_join_eq_passes hjoin).2 c hc).resolve_left
          (h.ne_unreachable (h.sound.target_lt hc))
      have hbt := Settled.passes (h.settled hb) hblk (h.isLoop_of_passes hblk hself) hdead
        (List.ne_nil_of_mem hc) harcs
      cases hself.symm.trans hbt
      have hlt := h.lt_of_arc hc (harcs c hc)
      have hle := (h.target_of_passes (h.sound.target_lt hc) (harcs c hc)).1
      exact absurd hlt (Nat.not_lt.mpr hle)
  · left
    simpa using hdead

section

variable (hg : g.Sound) (hfit : g.Fit) (hord : g.InReversePostorder)

include hg hfit hord

/-- The control states that a set of operations determines follow from each other. -/
theorem settled_entryControl (L : OpIndex → Bool) (b : BlockIndex) :
    Settled g L (g.entryControl L) b := by
  have hloops : ∀ {t : BlockIndex} {blk : Block}, g.blocks[t]? = some blk → blk.isLoop = true →
      g.entryControl L t = .stays := by
    intro t blk hblk hloop
    rw [Graph.entryControl]
    split
    · rename_i hnone
      rw [hnone] at hblk
      cases hblk
    · rename_i blk' hblk'
      cases hblk'.symm.trans hblk
      rw [if_pos hloop]
  intro blk hblk
  cases hloop : blk.isLoop with
  | true => rw [hloops hblk hloop, settle_of_isLoop hloop]
  | false =>
    -- the join sees later blocks only, since an edge back leads to a loop, where control stays
    have hjoin : Control.joinOf (g.entryControl L) (g.successors b) = Control.joinOf
        (fun t ↦ if _h' : b < t then g.entryControl L t else .stays) (g.successors b) := by
      refine Control.joinOf_congr fun t ht ↦ ?_
      split
      · rfl
      · rename_i hle
        obtain ⟨blk', hblk'⟩ := Graph.exists_block (hg.target_lt ht)
        exact hloops hblk' (isLoop_of_arc hfit hord hblk' ht (Nat.not_lt.mp hle))
    rw [settle_eq hloop, Graph.span_of_block hblk, hjoin, Graph.entryControl]
    split
    · rename_i hnone
      rw [hnone] at hblk
      cases hblk
    · rename_i blk' hblk'
      cases hblk'.symm.trans hblk
      rw [hloop, if_neg (by simp)]

theorem determined_entryControl (hL : g.LiveClosed L) : Determined g L (g.entryControl L) :=
  ⟨hg, hfit, hord, hL.required, fun {b} _ ↦ settled_entryControl hg hfit hord L b⟩

/-- Where control passes through under the larger set, it does under the smaller one, and comes
out at one block from both ends of the way. The states of the smaller set need to be settled from
block `p` on only. -/
theorem passes_of_entryControl {live : OpIndex → Bool} {F : BlockIndex → Control} {p : Nat}
    {t : BlockIndex} (hL : g.LiveClosed L) (hsub : ∀ i, live i = true → L i = true)
    (hF : ∀ {b}, p ≤ b → b < g.blockCount → Settled g live F b) {b : BlockIndex} (hp : p ≤ b)
    (hb : b < g.blockCount) (hpasses : g.entryControl L b = .passes t) :
    F b = F t ∧ ∃ u, F b = .passes u := by
  have hD := determined_entryControl hg hfit hord hL
  induction b, hb, hpasses using hD.passes_induction with
  | outlet ht _ hout =>
    obtain ⟨blk, hblk⟩ := Graph.exists_block ht
    refine ⟨rfl, Settled.exists_passes (hF hp ht) hblk (hout.merge hblk) fun i hi ↦ ?_⟩
    rw [Bool.and_eq_false_imp]
    intro hphi
    by_contra hlive
    rw [Bool.not_eq_false] at hlive
    simpa [hphi, hsub i hlive] using hout.phis i hi
  | @through b c hb hpasses hdead hc hnext =>
    -- along the way all successors come out at `t`
    have hagree : ∀ d, g.Arc b d → F d = F t ∧ ∃ u, F d = .passes u := fun d hd ↦ by
      obtain ⟨hlt, -, -, ih⟩ := hnext d hd
      exact ih (Nat.le_trans hp (Nat.le_of_lt hlt))
    obtain ⟨heq, u, hu⟩ := hagree c hc
    obtain ⟨blk, hblk⟩ := Graph.exists_block hb
    have hb' : F b = .passes u := by
      refine Settled.passes (hF hp hb) hblk (hD.isLoop_of_passes hblk hpasses) (fun i hi ↦ ?_)
        (List.ne_nil_of_mem hc) fun d hd ↦ ?_
      · by_contra hlive
        rw [Bool.not_eq_false] at hlive
        simpa [hdead i hi] using hsub i hlive
      · rw [(hagree d hd).1, ← heq, hu]
    exact ⟨by rw [hb', ← heq, hu], u, hb'⟩

/-- A jump that cannot be rewritten under the smaller set belongs to the larger one. -/
theorem mem_of_joinOf_eq_stays {live : OpIndex → Bool} {F : BlockIndex → Control} {p : Nat}
    {b : BlockIndex} (hL : g.LiveClosed L) (hsub : ∀ i, live i = true → L i = true)
    (hF : ∀ {b}, p ≤ b → b < g.blockCount → Settled g live F b) (hp : p ≤ b + 1)
    {i : OpIndex} {op : Operation} (hi : i ∈ (g.span b).toList) (hop : g.ops[i]? = some op)
    (hjump : op.isJump = true) (hstays : Control.joinOf F op.successors = .stays) :
    L i = true := by
  have hD := determined_entryControl hg hfit hord hL
  have hend := Operation.isTerminator_of_isJump hjump
  have hne := (successors_ne_nil hend (isRequired_of_isJump hjump)).2
  have hsucc : g.successors b = op.successors :=
    Graph.successors_of_terminator (hg.ends hi hop hend).1 hop
  cases hcontrol : Control.joinOf (g.entryControl L) op.successors with
  | stays => exact hL.jumps hop hjump hcontrol
  | unreachable =>
    obtain ⟨c, hc⟩ := List.exists_mem_of_ne_nil _ hne
    refine absurd ((Control.foldl_join_eq_unreachable hcontrol).2 c hc) (hD.ne_unreachable ?_)
    exact hg.target_lt (hsucc ▸ hc)
  | passes t =>
    -- all targets pass control on to one block, so that they agree under the smaller set as well
    have hnext : ∀ c ∈ op.successors, F c = F t ∧ ∃ u, F c = .passes u := by
      intro c hc
      have harc : g.Arc b c := by rwa [Graph.Arc, hsucc]
      have hpasses := ((Control.foldl_join_eq_passes hcontrol).2 c hc).resolve_left
        (hD.ne_unreachable (hg.target_lt harc))
      have hlt := hD.lt_of_arc harc hpasses
      exact passes_of_entryControl hg hfit hord hL hsub hF (by lia) (hg.target_lt harc) hpasses
    obtain ⟨c, hc⟩ := List.exists_mem_of_ne_nil _ hne
    obtain ⟨heq, u, hu⟩ := hnext c hc
    have hjoin : Control.joinOf F op.successors = .passes u :=
      Control.joinOf_eq_of_forall hne fun c' hc' ↦ by rw [(hnext c' hc').1, ← heq, hu]
    rw [hjoin] at hstays
    cases hstays

/-- There is a least closed set: what belongs to all closed sets. -/
theorem exists_isLeast_liveClosed : ∃ L, IsLeast {L | g.LiveClosed L} L := by
  classical
  have hsub : ∀ {L : OpIndex → Bool}, g.LiveClosed L → ∀ i,
      decide (∀ L, g.LiveClosed L → L i = true) = true → L i = true :=
    fun hL i hi ↦ of_decide_eq_true hi _ hL
  refine ⟨fun i ↦ decide (∀ L, g.LiveClosed L → L i = true), ⟨?_, ?_, ?_⟩, fun L hL i hi ↦ ?_⟩
  · exact fun hop hreq ↦ decide_eq_true fun L hL ↦ hL.required hop hreq
  · exact fun hop hi j hj ↦ decide_eq_true fun L hL ↦ hL.inputs hop (hsub hL _ hi) j hj
  · intro i op hop hjump hstays
    obtain ⟨b, hb⟩ := hg.exists_owner (Graph.lt_opCount hop)
    exact decide_eq_true fun L hL ↦ mem_of_joinOf_eq_stays hg hfit hord hL (hsub hL)
      (p := 0) (fun {b} _ _ ↦ settled_entryControl hg hfit hord _ b) (Nat.zero_le _) hb hop hjump
      hstays
  · exact hsub hL i hi

end

/-! ## Walking below a closed set

What the walk marks is in every closed set. A jump is marked if the states found so far do not let
control pass, which by then is so under the closed set as well. -/

def keepsLeaf (op : Operation) : Bool :=
  match op.action with
  | .call _ => false
  | _ => true

theorem keepsLeaf_eq_true {op : Operation} :
    keepsLeaf op = true ↔ ∀ callee, op.action ≠ .call callee := by
  rw [keepsLeaf]
  split <;> simp_all

/-- All that a walk has found is backed by the rules, if the operations of `L` are live. -/
structure Founded (g : Graph) (L : OpIndex → Bool) (s : Liveness) : Prop where
  sized : Sized g s
  below : ∀ i, s.isLive i = true → L i = true
  jumps : ∀ {i : OpIndex} {t : BlockIndex}, s.rewrites.get? i = some t →
    ∃ op, g.ops[i]? = some op ∧ op.isJump = true
  calls : s.leaf = false → ∃ (i : OpIndex) (op : Operation), g.ops[i]? = some op ∧
    keepsLeaf op = false

theorem Founded.withPending (h : Founded g L s) (p : Nat) : Founded g L { s with pending := p } :=
  ⟨h.sized.withPending p, h.below, h.jumps, h.calls⟩

theorem founded_start (g : Graph) (L : OpIndex → Bool) : Founded g L (start g) where
  sized := (underway_start g).sized
  below i hi := by
    have hlt : i < g.opCount := by simpa [start] using isLive_lt hi
    simp [isLive, start, hlt] at hi
  jumps ht := by
    obtain ⟨k, hk⟩ := (IndexMap.get?_eq_some (underway_start g).sized.tidy).mp ht
    simp [start, IndexMap.empty] at hk
  calls := nofun

theorem Founded.set_live {i : OpIndex} (h : Founded g L s) (hi : L i = true) :
    Founded g L { s with live := s.live.setIfInBounds i true } where
  sized := ⟨Array.size_setIfInBounds.trans h.sized.live, h.sized.control, h.sized.tidy,
    h.sized.capacity⟩
  below j hj := by
    by_cases hlt : i < s.live.size
    · rcases (isLive_set hlt j).mp hj with rfl | hj
      · exact hi
      · exact h.below j hj
    · rw [isLive, Array.setIfInBounds_eq_of_size_le (Nat.not_lt.mp hlt)] at hj
      exact h.below j hj
  jumps := h.jumps
  calls := h.calls

private theorem Founded.markInput (hg : g.Sound) (h : Founded g L s) (b : BlockIndex)
    (user : OpIndex) {input : OpIndex} (hlt : input < g.opCount) (hL : L input = true) :
    ∃ s', markInput g b user s input = .ok s' ∧ Founded g L s' ∧ s'.leaf = s.leaf := by
  obtain ⟨live, hlive⟩ : ∃ live, s.live[input]? = some live :=
    ⟨_, Array.getElem?_eq_getElem (h.sized.live ▸ hlt)⟩
  rw [Liveness.markInput, hlive]
  cases live with
  | true => exact ⟨s, rfl, h, rfl⟩
  | false =>
    obtain ⟨home, hhome⟩ : ∃ home, g.owners[input]? = some home :=
      ⟨_, Array.getElem?_eq_getElem (hg.owners_size ▸ hlt)⟩
    have hset := h.set_live hL
    simp only [Graph.blockOf_eq_ok.mpr hhome, ok_bind]
    split
    · exact ⟨_, rfl, ⟨⟨hset.sized.live, hset.sized.control, hset.sized.tidy, hset.sized.capacity⟩,
        hset.below, hset.jumps, hset.calls⟩, rfl⟩
    · exact ⟨_, rfl, hset, rfl⟩

private theorem Founded.markInputs (hg : g.Sound) (b : BlockIndex) (user : OpIndex) :
    ∀ {inputs : List OpIndex} {s : Liveness}, Founded g L s →
      (∀ j ∈ inputs, j < g.opCount ∧ L j = true) →
      ∃ s', inputs.foldlM (Liveness.markInput g b user) s = .ok s' ∧ Founded g L s' ∧
        s'.leaf = s.leaf := by
  intro inputs
  induction inputs with
  | nil => exact fun {s} h _ ↦ ⟨s, rfl, h, rfl⟩
  | cons input inputs ih =>
    intro s h hall
    rw [List.forall_mem_cons] at hall
    obtain ⟨s₁, h₁, hf₁, hleaf₁⟩ := h.markInput hg b user hall.1.1 hall.1.2
    obtain ⟨s', h', hf', hleaf'⟩ := ih hf₁ hall.2
    refine ⟨s', ?_, hf', hleaf'.trans hleaf₁⟩
    rw [List.foldlM_cons, h₁, ok_bind, h']

private theorem walkOp_of_ne_dead {i : OpIndex} {op : Operation} {w : Walk}
    (hop : g.ops[i]? = some op) (hdead : op.action ≠ .dead) :
    walkOp g b w i = walkJudged g b w i op (w.state.leaf && keepsLeaf op) := by
  rw [walkOp, Graph.op_eq_ok.mpr hop, ok_bind]
  split
  · rename_i hd
    exact absurd hd hdead
  · split
    · rename_i hcall
      have hkeeps : keepsLeaf op = false := by rw [keepsLeaf, hcall]
      rw [hkeeps, Bool.and_false]
      rfl
    · rename_i hcall
      rw [keepsLeaf_eq_true.mpr hcall, Bool.and_true]
      rfl

private theorem Founded.judge {i : OpIndex} {op : Operation} (h : Founded g L s)
    (hop : g.ops[i]? = some op) (control : Control) :
    Founded g L (judge s control i op).2 ∧ (judge s control i op).2.leaf = s.leaf := by
  have hj := judge_judged h.sized (Graph.lt_opCount hop) control op
  have hleaf : (Liveness.judge s control i op).2.leaf = s.leaf := by
    unfold Liveness.judge
    split
    · cases control <;> rfl
    · rfl
  refine ⟨⟨hj.sized, fun j hl ↦ h.below j ?_, fun {j t} ht ↦ ?_, fun hl ↦ h.calls (hleaf ▸ hl)⟩,
    hleaf⟩
  · rwa [isLive, hj.live_eq] at hl
  · by_cases hji : j = i
    · subst hji
      cases hjump : op.isJump with
      | true => exact ⟨op, hop, hjump⟩
      | false =>
        unfold Liveness.judge at ht
        rw [hjump, if_neg (by simp)] at ht
        exact h.jumps ht
    · exact h.jumps ((hj.rewrites_eq j hji).symm.trans ht)

/-- The outcome of a walk over the listed operations of block `b`: all goes well, or an operation
that was removed earlier turns out to be needed. -/
def Sustained (g : Graph) (L : OpIndex → Bool) (b : BlockIndex) (s : Liveness)
    (l : List OpIndex) : Except Breach Walk → Prop
  | .ok w => Founded g L w.state ∧ s.pending ≤ w.state.pending ∧
      (w.state.leaf = true → s.leaf = true ∧
        ∀ i ∈ l, ∀ op, g.ops[i]? = some op → keepsLeaf op = true)
  | .error e => ∃ i op, g.owners[i]? = some b ∧ g.ops[i]? = some op ∧ op.action = .dead ∧
      L i = true ∧ e = .removedStillUsed i b

private theorem Sustained.congr {l l' : List OpIndex} {r : Except Breach Walk}
    (h : Sustained g L b s l r) (hmem : ∀ i ∈ l', i ∈ l) : Sustained g L b s l' r := by
  cases r with
  | error e => exact h
  | ok w =>
    obtain ⟨hf, hle, hleaf⟩ := h
    exact ⟨hf, hle, fun hl ↦ ⟨(hleaf hl).1, fun i hi ↦ (hleaf hl).2 i (hmem i hi)⟩⟩

theorem Sustained.cons {l : List OpIndex} {i : OpIndex} {w : Walk}
    (hhead : Sustained g L b w.state [i] (walkOp g b w i))
    (htail : ∀ w₁ : Walk, Founded g L w₁.state →
      Sustained g L b w₁.state l (l.foldlM (walkOp g b) w₁)) :
    Sustained g L b w.state (i :: l) ((i :: l).foldlM (walkOp g b) w) := by
  rw [List.foldlM_cons]
  cases hw : walkOp g b w i with
  | error e =>
    rw [hw] at hhead
    exact hhead
  | ok w₁ =>
    rw [hw] at hhead
    obtain ⟨h₁, hle₁, hleaf₁⟩ := hhead
    specialize htail w₁ h₁
    rw [ok_bind]
    cases hl : l.foldlM (walkOp g b) w₁ with
    | error e =>
      rw [hl] at htail
      exact htail
    | ok w' =>
      rw [hl] at htail
      obtain ⟨h', hle', hleaf'⟩ := htail
      refine ⟨h', Nat.le_trans hle₁ hle', fun hleaf ↦ ?_⟩
      obtain ⟨hmid, hl'⟩ := hleaf' hleaf
      obtain ⟨hfirst, hi⟩ := hleaf₁ hmid
      exact ⟨hfirst, List.forall_mem_cons.mpr ⟨hi i (List.mem_singleton_self i), hl'⟩⟩

section

variable (hg : g.Sound) (hvalues : g.ValuesExist) (hL : g.LiveClosed L)

include hg hvalues hL

theorem sustained_walkOp {i : OpIndex} {op : Operation} {w : Walk} (h : Founded g L w.state)
    (hi : g.owners[i]? = some b) (hop : g.ops[i]? = some op)
    (hjump : op.isJump = true → w.control = .stays → L i = true) :
    Sustained g L b w.state [i] (walkOp g b w i) := by
  have honly : keepsLeaf op = true →
      ∀ j ∈ [i], ∀ op', g.ops[j]? = some op' → keepsLeaf op' = true := by
    intro hkeeps j hj op' hop'
    rw [List.mem_singleton.mp hj, hop] at hop'
    cases hop'
    exact hkeeps
  -- a removed operation that is live ends the walk, and no other operation does
  by_cases hdead : op.action = .dead
  · rw [walkOp, Graph.op_eq_ok.mpr hop, ok_bind, hdead]
    simp only
    split
    · rename_i hlive
      exact ⟨i, op, hi, hop, hdead, h.below i hlive, rfl⟩
    · exact ⟨h, Nat.le_refl _, fun hleaf ↦ ⟨hleaf, honly (by rw [keepsLeaf, hdead])⟩⟩
  · have hf : Founded g L { w.state with leaf := w.state.leaf && keepsLeaf op } := by
      refine ⟨⟨h.sized.live, h.sized.control, h.sized.tidy, h.sized.capacity⟩, h.below, h.jumps,
        fun hleaf ↦ ?_⟩
      rcases (Bool.and_eq_false_iff).mp hleaf with hleaf | hcall
      · exact h.calls hleaf
      · exact ⟨i, op, hop, hcall⟩
    have hdone : ∀ {leaf : Bool}, leaf = (w.state.leaf && keepsLeaf op) → leaf = true →
        w.state.leaf = true ∧ ∀ j ∈ [i], ∀ op', g.ops[j]? = some op' → keepsLeaf op' = true := by
      intro leaf heq hleaf
      rw [heq, Bool.and_eq_true] at hleaf
      exact ⟨hleaf.1, honly hleaf.2⟩
    have hj := judge_judged hf.sized (Graph.lt_opCount hop) w.control op
    obtain ⟨hf', hleaf'⟩ := hf.judge hop w.control
    rw [walkOp_of_ne_dead hop hdead, walkJudged]
    simp only
    split
    · exact ⟨hf', Nat.le_of_eq hj.pending_eq.symm, hdone hleaf'⟩
    · rename_i hlive
      have hLi : L i = true := by
        rw [Bool.not_eq_true, Bool.not_eq_false'] at hlive
        cases hc : op.isJump with
        | false =>
          rw [hj.plain hc, Bool.or_eq_true] at hlive
          exact hlive.elim (hL.required hop) (h.below i)
        | true =>
          by_cases hstays : w.control = .stays
          · exact hjump hc hstays
          · rw [hj.jump hc hstays] at hlive
            exact h.below i hlive
      obtain ⟨s', hmark, hf'', hleaf''⟩ := (hf'.set_live hLi).markInputs hg b i
        fun j hj ↦ ⟨hvalues hop j hj, hL.inputs hop hLi j hj⟩
      have hle := (foldlM_markInput hg hmark).1.pending_le
      rw [hmark]
      exact ⟨hf'', hj.pending_eq ▸ hle, hdone (hleaf''.trans hleaf')⟩

/-- Operations one after the other, where the jumps are known to belong to `L`. -/
theorem sustained_foldlM : ∀ {l : List OpIndex} {w : Walk}, Founded g L w.state →
    (∀ i ∈ l, g.owners[i]? = some b) →
    (∀ i ∈ l, ∀ op, g.ops[i]? = some op → op.isJump = true → L i = true) →
    Sustained g L b w.state l (l.foldlM (walkOp g b) w)
  | [], w, h, _, _ => ⟨h, Nat.le_refl _, fun hleaf ↦ ⟨hleaf, by simp⟩⟩
  | i :: l, w, h, hown, hjump => by
    rw [List.forall_mem_cons] at hown hjump
    obtain ⟨op, hop⟩ := Graph.exists_op (hg.lt_of_mem_span ((hg.mem_span_iff i b).mpr hown.1))
    exact (sustained_walkOp hg hvalues hL h hown.1 hop fun hc _ ↦ hjump.1 op hop hc).cons
      fun w₁ h₁ ↦ sustained_foldlM h₁ hown.2 hjump.2

private theorem sustained_span (hwf : g.WellFormed) (h : Founded g L s) (hb : b < g.blockCount)
    (hjump : ∀ {i op}, i ∈ (g.span b).toList → g.ops[i]? = some op → op.isJump = true →
      controlAfter g s b = .stays → L i = true) :
    Sustained g L b s (g.span b).toList
      ((g.span b).toList.reverse.foldlM (walkOp g b) ⟨s, controlAfter g s b, false⟩) := by
  obtain ⟨blk, hblk⟩ := Graph.exists_block hb
  obtain ⟨i, op, hlast, hop, -⟩ := (hwf.terminated hblk).exists_last
  rw [← Graph.span_of_block hblk] at hlast
  have hsplit := Span.toList_eq_append_last hlast
  have hmem : ∀ j ∈ (Span.mk (g.span b).first i).toList, j ∈ (g.span b).toList := fun j hj ↦
    hsplit ▸ List.mem_append_left _ hj
  have hown : ∀ j ∈ (g.span b).toList, g.owners[j]? = some b := fun j ↦ (hg.mem_span_iff j b).mp
  have hi := Span.last?_mem hlast
  have hreverse : (g.span b).toList.reverse
      = i :: (Span.mk (g.span b).first i).toList.reverse := by
    rw [hsplit, List.reverse_append, List.reverse_singleton, List.singleton_append]
  rw [hreverse]
  refine ((sustained_walkOp hg hvalues hL (w := ⟨s, controlAfter g s b, false⟩) h (hown i hi) hop
    (hjump hi hop)).cons fun w₁ h₁ ↦ sustained_foldlM hg hvalues hL h₁ (fun j hj ↦ ?_)
      fun j hj op' hop' hc ↦ ?_).congr fun j hj ↦ ?_
  · exact hown j (hmem j (List.mem_reverse.mp hj))
  · rw [List.mem_reverse] at hj
    have := (hg.ends (hmem j hj) hop' (Operation.isTerminator_of_isJump hc)).1
    rw [Graph.terminator?, hlast, Option.some.injEq] at this
    exact absurd (Span.mem_toList.mp hj).2 (by rw [this]; exact Nat.lt_irrefl _)
  · rw [← hreverse]
    exact List.mem_reverse.mpr hj

end

/-! ## Steps and runs below a closed set

A step of a supported state is supported, or it stops at a removed operation that is used. So the
run ends, and what it has marked is in the closed set. -/

/-- The state behind a walked block. -/
def finish (g : Graph) (b : BlockIndex) (blk : Block) (w : Walk) : Liveness :=
  let control := settle b blk w.control w.livePhi
  let s :=
    if blk.isLoop && w.state.controlOf b ≠ control then w.state.rewind (latestPredecessor g b)
    else w.state
  { s with
    control := s.control.setIfInBounds b control
    walked := (b, control) :: s.walked }

theorem walkBlock_eq {blk : Block} (hblk : g.blocks[b]? = some blk) :
    walkBlock g s b = (do
      let w ← (g.span b).toList.reverse.foldlM (walkOp g b) ⟨s, controlAfter g s b, false⟩
      return finish g b blk w) := by
  rw [walkBlock, Graph.block_eq_ok.mpr hblk, ok_bind, Graph.span_of_block hblk]
  rfl

theorem Founded.finish {w : Walk} (h : Founded g L w.state) (b : BlockIndex) (blk : Block) :
    Founded g L (finish g b blk w) ∧ w.state.pending ≤ (finish g b blk w).pending ∧
      (finish g b blk w).leaf = w.state.leaf := by
  have hsized := h.sized
  rw [Liveness.finish]
  simp only
  split
  · exact ⟨⟨⟨hsized.live, Array.size_setIfInBounds.trans hsized.control, hsized.tidy,
      hsized.capacity⟩, h.below, h.jumps, h.calls⟩, Nat.le_max_left _ _, rfl⟩
  · exact ⟨⟨⟨hsized.live, Array.size_setIfInBounds.trans hsized.control, hsized.tidy,
      hsized.capacity⟩, h.below, h.jumps, h.calls⟩, Nat.le_refl _, rfl⟩

/-- A walk on its way that has found nothing but what the rules back. -/
structure Supported (g : Graph) (L : OpIndex → Bool) (s : Liveness) : Prop where
  underway : Underway g s
  founded : Founded g L s
  leaf : s.leaf = true → ∀ {b}, s.pending ≤ b → b < g.blockCount →
    ∀ i ∈ (g.span b).toList, ∀ op, g.ops[i]? = some op → keepsLeaf op = true

section

variable (hg : g.Sound) (hfit : g.Fit) (hord : g.InReversePostorder) (hL : g.LiveClosed L)

include hg hfit hord hL

private theorem Supported.sustained (h : Supported g L s) (hpos : s.pending = b + 1) :
    Sustained g L b { s with pending := b } (g.span b).toList
      ((g.span b).toList.reverse.foldlM (walkOp g b)
        ⟨{ s with pending := b }, controlAfter g { s with pending := b } b, false⟩) := by
  have hb : b < g.blockCount := by have := h.underway.pending_le; lia
  refine sustained_span hg (fun hop ↦ (hfit.wellFormed.referring hop).value_lt) hL hfit.wellFormed
    (h.founded.withPending b) hb fun {i op} hi hop hjump hstays ↦ ?_
  have hend := Operation.isTerminator_of_isJump hjump
  rw [controlAfter, Graph.successors_of_terminator (hg.ends hi hop hend).1 hop] at hstays
  exact mem_of_joinOf_eq_stays hg hfit hord hL h.founded.below (p := b + 1)
    (fun hp hb ↦ (h.underway.stable (hpos ▸ hp) hb).settled) (Nat.le_refl _) hi hop hjump hstays

omit hg hfit hord hL in
theorem supported_start (g : Graph) (L : OpIndex → Bool) : Supported g L (start g) where
  underway := underway_start g
  founded := founded_start g L
  leaf _ _ hle hlt := absurd hlt (Nat.not_lt.mpr hle)

/-- One step: it is supported again, with less to do, or it stops at an operation that was removed
earlier and is needed. -/
private theorem Supported.step (h : Supported g L s) (hpos : s.pending ≠ 0) :
    (∃ s', Liveness.step g s = .ok s' ∧ Supported g L s' ∧ effort g s' < effort g s) ∨
      ∃ i b op, g.owners[i]? = some b ∧ g.ops[i]? = some op ∧ op.action = .dead ∧ L i = true ∧
        Liveness.step g s = .error (.removedStillUsed i b) := by
  obtain ⟨b, hb⟩ := Nat.exists_eq_succ_of_ne_zero hpos
  have hsust := h.sustained hg hfit hord hL hb
  obtain ⟨blk, hblk⟩ := Graph.exists_block (show b < g.blockCount by
    have := h.underway.pending_le; lia)
  have hstep := (step_eq hb).trans (walkBlock_eq hblk)
  cases hw : (g.span b).toList.reverse.foldlM (walkOp g b)
      ⟨{ s with pending := b }, controlAfter g { s with pending := b } b, false⟩ with
  | error e =>
    rw [hw] at hsust hstep
    obtain ⟨i, op, hown, hop, hdead, hi, rfl⟩ := hsust
    exact Or.inr ⟨i, b, op, hown, hop, hdead, hi, hstep⟩
  | ok w =>
    rw [hw] at hsust hstep
    obtain ⟨hf, hle, hleaf⟩ := hsust
    obtain ⟨hf', hle', hleaf'⟩ := hf.finish b blk
    obtain ⟨hunder, heffort⟩ := h.underway.step hg hfit hord hpos hstep
    refine Or.inl ⟨_, hstep, ⟨hunder, hf', fun hl {c} hc hcn ↦ ?_⟩, heffort⟩
    obtain ⟨hold, hspan⟩ := hleaf (hleaf'.symm.trans hl)
    rcases Nat.eq_or_lt_of_le (Nat.le_trans hle (Nat.le_trans hle' hc)) with heq | hlt
    · exact heq ▸ hspan
    · exact h.leaf hold (hb ▸ hlt) hcn

/-- The whole run: it ends with nothing pending, or at an operation that was removed earlier and
is needed. -/
theorem Supported.run : ∀ {steps : Nat} {s : Liveness}, Supported g L s → effort g s ≤ steps →
    (∃ s', Liveness.run g steps s = ⟨s', none⟩ ∧ Supported g L s' ∧ s'.pending = 0) ∨
      ∃ s' i b op, g.owners[i]? = some b ∧ g.ops[i]? = some op ∧ op.action = .dead ∧ L i = true ∧
        Liveness.run g steps s = ⟨s', some (.removedStillUsed i b)⟩ := by
  intro steps
  induction steps with
  | zero =>
    intro s h heffort
    exact Or.inl ⟨s, rfl, h, Nat.eq_zero_of_le_zero (Nat.le_trans (Nat.le_add_left _ _) heffort)⟩
  | succ steps ih =>
    intro s h heffort
    rw [Liveness.run]
    by_cases hpos : s.pending = 0
    · rw [if_pos hpos]
      exact Or.inl ⟨s, rfl, h, hpos⟩
    · rw [if_neg hpos]
      rcases h.step hg hfit hord hL hpos with
        ⟨s₁, hstep, h₁, hlt⟩ | ⟨i, b, op, hown, hop, hdead, hi, hstep⟩
      · rw [hstep]
        exact ih h₁ (by lia)
      · rw [hstep]
        exact Or.inr ⟨s, i, b, op, hown, hop, hdead, hi, rfl⟩

end

/-- The analysis comes to its end if nothing that was removed earlier is used. -/
theorem exists_liveness (hg : g.Sound) (hfit : g.Fit) (hord : g.InReversePostorder)
    (hused : g.DeadUnused) : ∃ s, g.liveness = .ok s := by
  rw [Graph.liveness, Graph.livenessOutcome]
  rcases (supported_start g _).run hg hfit hord g.liveClosed_wanted (effort_start_le g) with
    ⟨s, hrun, -⟩ | ⟨s, i, b, op, -, hop, hdead, hi, -⟩
  · exact ⟨s, by rw [hrun]⟩
  · obtain ⟨user, huser, hinput⟩ := Graph.exists_user_of_wanted hop hdead hi
    exact absurd hdead (hused user huser i hinput op hop)

/-! ## The solution

At the end the live operations form a closed set, and they are in every other one. The control
states, the rewrites and the flag for leaves follow from them. -/

private theorem Determined.unique {F F' : BlockIndex → Control} (h : Determined g L F)
    (h' : Determined g L F') {b : BlockIndex} (hb : b < g.blockCount) : F b = F' b := by
  induction b, hb using Graph.later_induction with
  | later b hb ih =>
    obtain ⟨blk, hblk⟩ := Graph.exists_block hb
    have hjoin : Control.joinOf F (g.successors b) = Control.joinOf F' (g.successors b) := by
      refine Control.joinOf_congr fun t ht ↦ ?_
      obtain ⟨blk', hblk'⟩ := Graph.exists_block (h.sound.target_lt ht)
      by_cases hle : t ≤ b
      · have hloop := isLoop_of_arc h.fit h.ordered hblk' ht hle
        rw [h.control_of_isLoop hblk' hloop, h'.control_of_isLoop hblk' hloop]
      · exact ih t (h.sound.target_lt ht) (Nat.lt_of_not_le hle)
    rw [h.settled hb hblk, h'.settled hb hblk, hjoin]

namespace Analysed

variable (h : Analysed g s)

include h

theorem controlOf_eq (hb : b < g.blockCount) : s.controlOf b = g.entryControl s.isLive b :=
  h.determined.unique ⟨h.sound, h.fit, h.ordered, h.isLive_of_required, fun {b} _ ↦
    settled_entryControl h.sound h.fit h.ordered _ b⟩ hb

theorem joinOf_eq {i : OpIndex} {op : Operation} (hi : i ∈ (g.span b).toList)
    (hop : g.ops[i]? = some op) (hjump : op.isJump = true) :
    Control.joinOf (g.entryControl s.isLive) op.successors = controlAfter g s b := by
  have hend := Operation.isTerminator_of_isJump hjump
  rw [← Graph.successors_of_terminator (h.sound.ends hi hop hend).1 hop]
  exact Control.joinOf_congr fun t ht ↦ (h.controlOf_eq (h.sound.target_lt ht)).symm

end Analysed

namespace Stabilized

variable (h : Stabilized g s)

include h

/-- What the analysis finds live is closed under the rules. -/
theorem liveClosed : g.LiveClosed s.isLive where
  required := h.isLive_of_required
  inputs hop hlive _ hj := h.isLive_of_input hop hlive hj
  jumps {i op} hop hjump hstays := by
    obtain ⟨b, hi⟩ := h.sound.exists_owner (Graph.lt_opCount hop)
    rw [h.joinOf_eq hi hop hjump] at hstays
    exact ((h.stable (Graph.lt_blockCount_of_mem_span hi)).agrees.stays hi hop hjump hstays).1

/-- Where control passes through, it also does so if less is live, and then to where it passes from
its target. -/
theorem passes_of_subset (hsub : ∀ i, L i = true → s.isLive i = true) {t : BlockIndex}
    (hb : b < g.blockCount) (hpasses : s.controlOf b = .passes t) :
    g.entryControl L b = g.entryControl L t ∧ ∃ u, g.entryControl L b = .passes u := by
  rw [h.controlOf_eq hb] at hpasses
  exact passes_of_entryControl h.sound h.fit h.ordered h.liveClosed hsub (p := 0)
    (fun {c} _ _ ↦ settled_entryControl h.sound h.fit h.ordered L c) (Nat.zero_le b) hb hpasses

/-- A rewritten jump leads to a block that holds something live. -/
theorem exists_live_of_rewrite {i : OpIndex} {op : Operation} {t : BlockIndex}
    (hi : i ∈ (g.span b).toList) (hop : g.ops[i]? = some op) (hjump : op.isJump = true)
    (ht : s.rewrites.get? i = some t) : ∃ j ∈ (g.span t).toList, s.isLive j = true := by
  obtain ⟨harcs, htlt, -⟩ := h.target_of_rewrite hi hop hjump ht
  have hend := Operation.isTerminator_of_isJump hjump
  obtain ⟨-, hne⟩ := successors_ne_nil hend (isRequired_of_isJump hjump)
  rw [← Graph.successors_of_terminator (h.sound.ends hi hop hend).1 hop] at hne
  obtain ⟨c, hc⟩ := List.exists_mem_of_ne_nil _ hne
  have hself := h.determined.passes_target (h.sound.target_lt hc) (harcs c hc)
  rcases h.determined.exists_live_or_stays htlt hself with hlive | hstays
  · exact hlive
  · obtain ⟨j, op', hterm, hj, hop', -⟩ := h.determined.exists_terminator htlt
    refine ⟨j, hj, ?_⟩
    cases hjump' : op'.isJump with
    | true => exact ((h.stable htlt).agrees.stays hj hop' hjump' hstays).1
    | false =>
      rw [Graph.successors_of_terminator hterm hop', Operation.successors_of_not_isJump hjump']
        at hstays
      cases hstays

private theorem rewrites_iff (hf : Founded g L s) (i : OpIndex) (t : BlockIndex) :
    s.rewrites.get? i = some t ↔ ∃ op, g.ops[i]? = some op ∧ op.isJump = true ∧
      Control.joinOf (g.entryControl s.isLive) op.successors = .passes t := by
  constructor
  · intro ht
    obtain ⟨op, hop, hjump⟩ := hf.jumps ht
    obtain ⟨b, hi⟩ := h.sound.exists_owner (Graph.lt_opCount hop)
    refine ⟨op, hop, hjump, ?_⟩
    obtain ⟨-, hne⟩ := successors_ne_nil (Operation.isTerminator_of_isJump hjump)
      (isRequired_of_isJump hjump)
    obtain ⟨harcs, -⟩ := h.target_of_rewrite hi hop hjump ht
    rw [← Graph.successors_of_terminator
      (h.sound.ends hi hop (Operation.isTerminator_of_isJump hjump)).1 hop] at hne ⊢
    exact Control.joinOf_eq_of_forall hne fun c hc ↦ by
      rw [← h.controlOf_eq (h.sound.target_lt hc), harcs c hc]
  · rintro ⟨op, hop, hjump, hpasses⟩
    obtain ⟨b, hi⟩ := h.sound.exists_owner (Graph.lt_opCount hop)
    rw [h.joinOf_eq hi hop hjump] at hpasses
    exact (h.stable (Graph.lt_blockCount_of_mem_span hi)).agrees.passes hi hop hjump hpasses

end Stabilized

/-- The outcome of the analysis, if the operations of `L` are the live ones. -/
structure Solves (g : Graph) (L : OpIndex → Bool) (s : Liveness) : Prop where
  live : s.live = Array.ofFn fun i : Fin g.opCount ↦ L i
  control : s.control = Array.ofFn fun b : Fin g.blockCount ↦ g.entryControl L b
  rewrites : ∀ i t, s.rewrites.get? i = some t ↔ ∃ op, g.ops[i]? = some op ∧ op.isJump = true ∧
    Control.joinOf (g.entryControl L) op.successors = .passes t
  leaf : s.leaf = true ↔ ∀ (i : OpIndex) (op : Operation), g.ops[i]? = some op →
    ∀ callee, op.action ≠ .call callee

theorem Supported.stabilized (hg : g.Sound) (hfit : g.Fit) (hord : g.InReversePostorder)
    (h : Supported g L s) (hpending : s.pending = 0) : Stabilized g s :=
  .of_stable hg hfit hord h.founded.sized
    fun hb ↦ h.underway.stable (by rw [hpending]; exact Nat.zero_le _) hb

theorem Supported.isLive_eq (hg : g.Sound) (hfit : g.Fit) (hord : g.InReversePostorder)
    (hL : IsLeast {L | g.LiveClosed L} L) (h : Supported g L s) (hpending : s.pending = 0) :
    s.isLive = L :=
  le_antisymm (fun i ↦ h.founded.below i) (hL.2 (h.stabilized hg hfit hord hpending).liveClosed)

private theorem Supported.solves (hg : g.Sound) (hfit : g.Fit) (hord : g.InReversePostorder)
    (hL : IsLeast {L | g.LiveClosed L} L) (h : Supported g L s) (hpending : s.pending = 0) :
    Solves g L s ∧ ∀ {i : OpIndex} {op : Operation}, g.ops[i]? = some op → L i = true →
      op.action ≠ .dead := by
  have hall : ∀ {b}, s.pending ≤ b := by rw [hpending]; exact Nat.zero_le _
  have hA := h.stabilized hg hfit hord hpending
  obtain rfl := h.isLive_eq hg hfit hord hL hpending
  refine ⟨⟨?_, ?_, hA.rewrites_iff h.founded, ?_⟩, hA.not_dead⟩
  · refine Array.ext (by rw [Array.size_ofFn, h.founded.sized.live]) fun i hi _ ↦ ?_
    rw [Array.getElem_ofFn, isLive, Array.getElem?_eq_getElem hi, Option.getD_some]
  · refine Array.ext (by rw [Array.size_ofFn, h.founded.sized.control]) fun b hb hb' ↦ ?_
    rw [Array.size_ofFn] at hb'
    rw [Array.getElem_ofFn, ← hA.controlOf_eq hb', controlOf, Array.getElem?_eq_getElem hb,
      Option.getD_some]
  · constructor
    · intro hleaf i op hop
      obtain ⟨b, hi⟩ := hg.exists_owner (Graph.lt_opCount hop)
      exact keepsLeaf_eq_true.mp
        (h.leaf hleaf hall (Graph.lt_blockCount_of_mem_span hi) i hi op hop)
    · intro hno
      by_contra hleaf
      obtain ⟨i, op, hop, hcall⟩ := h.founded.calls (by simpa using hleaf)
      rw [keepsLeaf_eq_true.mpr (hno i op hop)] at hcall
      cases hcall

/-- What the analysis finds live is the least closed set. -/
theorem isLeast_isLive (hg : g.Sound) (hfit : g.Fit) (hord : g.InReversePostorder)
    (h : g.liveness = .ok s) : IsLeast {L | g.LiveClosed L} s.isLive := by
  obtain ⟨L, hL⟩ := exists_isLeast_liveClosed hg hfit hord
  rw [Graph.liveness, Graph.livenessOutcome] at h
  rcases (supported_start g L).run hg hfit hord hL.1 (effort_start_le g) with
    ⟨s', hrun, hs', hpending⟩ | ⟨s', i, b, op, -, -, -, -, hrun⟩
  · rw [hrun] at h
    cases h
    rw [hs'.isLive_eq hg hfit hord hL hpending]
    exact hL
  · rw [hrun] at h
    cases h

/-- The analysis of a verified graph finds the least set that is closed under its rules and what
follows from it; or it stops, at an operation of that set that was removed earlier. -/
theorem least_solution_of_liveness {g : Graph} (hbuilt : g.Built) (hfit : g.problems true = []) :
    ∃ L, IsLeast {L | g.LiveClosed L} L ∧
      ((∀ i op, g.ops[i]? = some op → L i = true → op.action ≠ .dead) →
        ∃ s, g.liveness = .ok s ∧ Solves g L s) ∧
      ((∃ i op, g.ops[i]? = some op ∧ L i = true ∧ op.action = .dead) →
        ∃ i b op, g.ops[i]? = some op ∧ L i = true ∧ op.action = .dead ∧
          g.owners[i]? = some b ∧ g.liveness = .error (.removedStillUsed i b)) := by
  have hg := hbuilt.sound
  obtain ⟨hf, hord⟩ := (Graph.problems_eq_nil hg true).mp hfit
  obtain ⟨L, hL⟩ := exists_isLeast_liveClosed hg hf (hord rfl)
  refine ⟨L, hL, ?_⟩
  rw [Graph.liveness, Graph.livenessOutcome]
  rcases (supported_start g L).run hg hf (hord rfl) hL.1 (effort_start_le g) with
    ⟨s, hrun, h, hpending⟩ | ⟨s, i, b, op, hown, hop, hdead, hi, hrun⟩
  · rw [hrun]
    obtain ⟨hsolves, hnone⟩ := h.solves hg hf (hord rfl) hL hpending
    refine ⟨fun _ ↦ ⟨s, rfl, hsolves⟩, ?_⟩
    rintro ⟨i, op, hop, hi, hdead⟩
    exact absurd hdead (hnone hop hi)
  · rw [hrun]
    refine ⟨fun hnone ↦ absurd hdead (hnone i op hop hi), fun _ ↦ ?_⟩
    exact ⟨i, b, op, hop, hi, hdead, hown, rfl⟩

theorem least_solution_sampleLoop :
    ∃ L s, IsLeast {L | Graph.sampleLoop.LiveClosed L} L ∧ Graph.sampleLoop.liveness = .ok s ∧
      Solves Graph.sampleLoop L s := by
  have hops : ∀ op ∈ Graph.sampleLoop.ops.toList, op.action ≠ .dead := by decide
  obtain ⟨L, hL, hok, -⟩ := least_solution_of_liveness
    (Sketch.graph_built ⟨[[1], [2, 3], [1], []], [1]⟩ .empty rfl : Graph.sampleLoop.Built)
    (by decide)
  obtain ⟨s, hs, hsolves⟩ := hok fun i op hop _ ↦
    hops op (Array.mem_toList_iff.mpr (Array.mem_of_getElem? hop))
  exact ⟨L, s, hL, hs, hsolves⟩

end Liveness

end Flowgraph
