import Flowgraph.Proofs.Liveness.Bypass
import Flowgraph.Proofs.Rebuild.Steps

/-!
# Rebuilding a graph without its dead operations

The reducer that drops dead operations rebuilds a graph block by block, with or without the one that
forwards phis. What the copy has to do with the source is said by two partial maps, one for blocks
and one for operations, and by what the copy of an operation looks like: `Image`.

## The invariant

`Copying` relates source and copy at any time between two operations. The span of a copied block
holds the values that the operations of its source have of their own, in order, and each of them is
an image. The maps only ever grow, and an image stays one when they do.

## Forwarded phis

A phi that is forwarded has no value of its own: it shares the one of another operation. Which one,
is said by a map `ρ` on the operations of the source, which takes every other operation to itself.

## Phis

A phi takes its inputs when it is copied, from the predecessors that the copied block has by then.
For a merge those are all that it will ever have; for a loop the inputs are taken again at the end.
-/

namespace Flowgraph

/-! ## Renaming by partial maps

What was copied knows only those blocks and operations of the source that have images. An operation
is renamed if all that it refers to has one, and the maps may grow afterwards. -/

namespace Operation

/-- `op'` is `op` with its blocks and values renamed by partial maps. -/
structure RenamedTo (β : BlockIndex → Option BlockIndex) (ω : OpIndex → Option OpIndex)
    (op op' : Operation) : Prop where
  action : op.action.rename β = some op'.action
  inputs : List.Forall₂ (fun i v ↦ ω i = some v) op.inputs op'.inputs

variable {β β' : BlockIndex → Option BlockIndex} {ω ω' : OpIndex → Option OpIndex}
  {op op' : Operation}

private theorem RenamedTo.mono (h : RenamedTo β ω op op')
    (hβ : ∀ {b c}, β b = some c → β' b = some c) (hω : ∀ {i v}, ω i = some v → ω' i = some v) :
    RenamedTo β' ω' op op' where
  action := by
    have haction := h.action
    obtain ⟨action, inputs⟩ := op
    cases action with
    | goto t =>
      obtain ⟨c, hc, heq⟩ := Option.bind_eq_some_iff.mp haction
      simp only [Action.rename, hβ hc]
      exact heq
    | branch t f hint =>
      obtain ⟨c, hc, heq⟩ := Option.bind_eq_some_iff.mp haction
      obtain ⟨d, hd, heq⟩ := Option.bind_eq_some_iff.mp heq
      simp only [Action.rename, hβ hc, hβ hd]
      exact heq
    | _ => exact haction
  inputs := h.inputs.imp fun _ _ ↦ hω

/-- A jump is renamed by renaming its targets, and any other action is kept. -/
theorem RenamedTo.action_cases (h : RenamedTo β ω op op') :
    (∃ t c, op.action = .goto t ∧ β t = some c ∧ op'.action = .goto c) ∨
      (∃ t f c d hint, op.action = .branch t f hint ∧ β t = some c ∧ β f = some d ∧
        op'.action = .branch c d hint) ∨
      op'.action = op.action ∧ op.isJump = false := by
  have haction := h.action
  obtain ⟨action, inputs⟩ := op
  cases action with
  | goto t =>
    obtain ⟨c, hc, heq⟩ := Option.bind_eq_some_iff.mp haction
    exact Or.inl ⟨t, c, rfl, hc, (Option.some.inj heq).symm⟩
  | branch t f hint =>
    obtain ⟨c, hc, heq⟩ := Option.bind_eq_some_iff.mp haction
    obtain ⟨d, hd, heq⟩ := Option.bind_eq_some_iff.mp heq
    exact Or.inr (Or.inl ⟨t, f, c, d, hint, rfl, hc, hd, (Option.some.inj heq).symm⟩)
  | _ => exact Or.inr (Or.inr ⟨(Option.some.inj haction).symm, rfl⟩)

/-- The successors of a renamed operation come from those of the operation itself. -/
theorem RenamedTo.successors (h : RenamedTo β ω op op') :
    List.Forall₂ (fun t c ↦ β t = some c) op.successors op'.successors := by
  rcases h.action_cases with
    ⟨t, c, haction, hc, haction'⟩ | ⟨t, f, c, d, hint, haction, hc, hd, haction'⟩ | ⟨heq, hjump⟩
  · rw [Operation.successors, haction, Operation.successors, haction']
    exact .cons hc .nil
  · rw [Operation.successors, haction, Operation.successors, haction']
    exact .cons hc (.cons hd .nil)
  · have hsame : op'.successors = op.successors := by
      rw [Operation.successors, heq, ← Operation.successors]
    rw [hsame, successors_of_not_isJump hjump]
    exact .nil

/-- A renamed operation is of the same sort. -/
theorem RenamedTo.sort_eq (h : RenamedTo β ω op op') : op'.isTerminator = op.isTerminator ∧
    op'.isPhi = op.isPhi ∧ op'.isRequired = op.isRequired ∧ op'.isJump = op.isJump := by
  rcases h.action_cases with
    ⟨t, c, haction, -, haction'⟩ | ⟨t, f, c, d, hint, haction, -, -, haction'⟩ | ⟨heq, -⟩
  · simp [isTerminator, isPhi, isRequired, isJump, haction, haction']
  · simp [isTerminator, isPhi, isRequired, isJump, haction, haction']
  · simp [isTerminator, isPhi, isRequired, isJump, heq]

end Operation

/-- Renaming an operation maps its targets, one after the other, and takes the values of its
inputs. What every mapped target keeps, the operation keeps. -/
theorem Build.renamedTo_of_rename {P : Assembler → Prop} {a a' : Assembler} {op op' : Operation}
    (hkeeps : ∀ t ∈ op.successors, ∀ {c a₁ a₂}, P a₁ → Yields (mapBlock t) a₁ c a₂ → P a₂)
    (h : P a) (hy : Yields (op.rename mapBlock mapInput) a op' a') :
    P a' ∧ op.RenamedTo a'.copy? a'.value? op' := by
  simp only [Operation.rename, yields_bind, yields_pure] at hy
  obtain ⟨action, a₁, haction, inputs, a₂, hinputs, rfl, rfl⟩ := hy
  obtain ⟨rfl, hvalues⟩ := yields_mapM_mapInput hinputs
  suffices htargets : P a' ∧ op.action.rename a'.copy? = some action from
    ⟨htargets.1, htargets.2, forall₂_of_mapM_some hvalues⟩
  obtain ⟨act, inputs₀⟩ := op
  cases act with
  | goto t =>
    simp only [Action.rename, yields_bind, yields_pure] at haction
    obtain ⟨c, a₁, hc, rfl, rfl⟩ := haction
    refine ⟨hkeeps t (by simp [Operation.successors]) h hc, ?_⟩
    simp only [Action.rename, (copy?_of_mapBlock hc).1]
    rfl
  | branch t f hint =>
    simp only [Action.rename, yields_bind, yields_pure] at haction
    obtain ⟨c, a₁, hc, d, a₂, hd, rfl, rfl⟩ := haction
    have h₁ := hkeeps t (by simp [Operation.successors]) h hc
    obtain ⟨hcopy, hmono⟩ := copy?_of_mapBlock hd
    refine ⟨hkeeps f (by simp [Operation.successors]) h₁ hd, ?_⟩
    simp only [Action.rename, hmono (copy?_of_mapBlock hc).1, hcopy]
    rfl
  | _ =>
    obtain ⟨rfl, rfl⟩ := yields_pure.mp haction
    exact ⟨h, rfl⟩

namespace Liveness

/-- The block that an operation is rewritten to jump to. -/
def rewrite? (s : Liveness) (i : OpIndex) (op : Operation) : Option BlockIndex :=
  if op.isJump then s.rewrites.get? i else none

theorem isJump_of_rewrite {s : Liveness} {i : OpIndex} {op : Operation}
    (h : (s.rewrite? i op).isSome = true) : op.isJump = true := by
  rw [rewrite?] at h
  split at h
  · assumption
  · cases h

/-- Is the operation copied, in one form or the other? -/
def Kept (s : Liveness) (i : OpIndex) (op : Operation) : Prop :=
  s.isLive i = true ∨ (s.rewrite? i op).isSome = true

end Liveness

/-- `op'` is what operation `i` of the source becomes. The inputs of a phi are left open. -/
inductive Image (s : Liveness) (β : BlockIndex → Option BlockIndex)
    (ω : OpIndex → Option OpIndex) (i : OpIndex) (op : Operation) : Operation → Prop where
  | rewritten {t c : BlockIndex} : s.rewrite? i op = some t → β t = some c →
    Image s β ω i op (.goto c)
  | phi {op' : Operation} : op.isPhi = true → s.isLive i = true → op'.action = op.action →
    Image s β ω i op op'
  | renamed {op' : Operation} : s.rewrite? i op = none → s.isLive i = true → op.isPhi = false →
    op.RenamedTo β ω op' → Image s β ω i op op'

namespace Image

variable {s : Liveness} {β β' : BlockIndex → Option BlockIndex} {ω ω' : OpIndex → Option OpIndex}
  {i : OpIndex} {op op' : Operation}

theorem mono (h : Image s β ω i op op') (hβ : ∀ {b c}, β b = some c → β' b = some c)
    (hω : ∀ {i v}, ω i = some v → ω' i = some v) : Image s β' ω' i op op' := by
  cases h with
  | rewritten ht hc => exact .rewritten ht (hβ hc)
  | phi hphi hlive haction => exact .phi hphi hlive haction
  | renamed hnone hlive hphi hren => exact .renamed hnone hlive hphi (hren.mono hβ hω)

theorem kept (h : Image s β ω i op op') : s.Kept i op := by
  cases h with
  | rewritten ht => exact Or.inr (by rw [ht]; rfl)
  | phi _ hlive => exact Or.inl hlive
  | renamed _ hlive => exact Or.inl hlive

theorem isLive_of_isPhi (h : Image s β ω i op op') (hphi : op.isPhi = true) :
    s.isLive i = true := by
  cases h with
  | rewritten ht =>
    rw [Liveness.rewrite?, (Liveness.isRequired_of_isPhi hphi).2] at ht
    cases ht
  | phi _ hlive => exact hlive
  | renamed _ hlive => exact hlive

theorem action_of_isPhi (h : Image s β ω i op op') (hphi : op.isPhi = true) :
    op'.action = op.action := by
  cases h with
  | rewritten ht =>
    rw [Liveness.rewrite?, (Liveness.isRequired_of_isPhi hphi).2] at ht
    cases ht
  | phi _ _ haction => exact haction
  | renamed _ _ hphi' =>
    rw [hphi] at hphi'
    cases hphi'

/-- What stands for a phi ends no block. -/
theorem successors_of_isPhi (h : Image s β ω i op op') (hphi : op.isPhi = true) :
    op'.successors = [] := by
  rw [Operation.successors, h.action_of_isPhi hphi]
  rw [Operation.isPhi] at hphi
  split at hphi <;> simp_all

end Image

/-- The inputs of the phi `op'` in block `c` are those that `op` has in block `b` for the same
predecessors. A value that did not exist when they were taken shows as the handle that names
nothing. -/
structure PhiMatched (g out : Graph) (β : BlockIndex → Option BlockIndex)
    (ω : OpIndex → Option OpIndex) (b c : BlockIndex) (op op' : Operation) : Prop where
  input : ∀ {q p' : Nat}, (out.predecessors c)[q]? = some p' → ∃ p k j w, β p = some p' ∧
    (g.slots b p)[((out.predecessors c).take q).count p']? = some k ∧ op.inputs[k]? = some j ∧
    op'.inputs[q]? = some w ∧ (w = noHandle ∨ ω j = some w)

theorem PhiMatched.mono {g out out' : Graph} {β β' : BlockIndex → Option BlockIndex}
    {ω ω' : OpIndex → Option OpIndex} {b c : BlockIndex} {op op' : Operation}
    (h : PhiMatched g out β ω b c op op') (hpreds : out'.predecessors c = out.predecessors c)
    (hβ : ∀ {b c}, β b = some c → β' b = some c) (hω : ∀ {i v}, ω i = some v → ω' i = some v) :
    PhiMatched g out' β' ω' b c op op' where
  input {q p'} hq := by
    rw [hpreds] at hq ⊢
    obtain ⟨p, k, j, w, hp, hk, hj, hw, hor⟩ := h.input hq
    exact ⟨p, k, j, w, hβ hp, hk, hj, hw, hor.imp_right hω⟩

private theorem eq_of_filterMap_nodup {α β : Type} {f : α → Option β} : ∀ {l : List α},
    (l.filterMap f).Nodup → ∀ {x y : α} {v : β}, x ∈ l → y ∈ l → f x = some v → f y = some v → x = y
  | [], _, _, _, _, hx, _, _, _ => nomatch hx
  | z :: l, hnd, x, y, v, hx, hy, hfx, hfy => by
    have hmem : ∀ {w}, w ∈ l → f w = some v → v ∈ l.filterMap f := fun hw hfw ↦
      List.mem_filterMap.mpr ⟨_, hw, hfw⟩
    -- an element without a value can be dropped, and one with `v` leaves none for the others
    cases hz : f z with
    | none =>
      rw [List.filterMap_cons_none hz] at hnd
      have hin : ∀ {w}, w ∈ z :: l → f w = some v → w ∈ l := fun hw hfw ↦ by
        rcases List.mem_cons.mp hw with rfl | hw
        · rw [hz] at hfw
          cases hfw
        · exact hw
      exact eq_of_filterMap_nodup hnd (hin hx hfx) (hin hy hfy) hfx hfy
    | some w =>
      rw [List.filterMap_cons_some hz, List.nodup_cons] at hnd
      rcases List.mem_cons.mp hx with rfl | hx'
      · rcases List.mem_cons.mp hy with rfl | hy'
        · rfl
        · cases hz.symm.trans hfx
          exact absurd (hmem hy' hfy) hnd.1
      · rcases List.mem_cons.mp hy with rfl | hy'
        · cases hz.symm.trans hfy
          exact absurd (hmem hx' hfx) hnd.1
        · exact eq_of_filterMap_nodup hnd.2 hx' hy' hfx hfy

/-- Values that are not all one and the same stay so when missing ones show as the handle that names
nothing. -/
theorem exists_ne_of_getD {inputs : List (Option OpIndex)}
    (h : ∀ {w}, inputs ≠ [] → ¬∀ x ∈ inputs, x = some w) :
    ∀ x ∈ inputs.map (·.getD noHandle), x ≠ noHandle →
      ∃ y ∈ inputs.map (·.getD noHandle), y ≠ x := by
  intro x hx hne
  by_contra hall
  push Not at hall
  refine h (w := x) (fun hnil ↦ by rw [hnil] at hx; cases hx) fun z hz ↦ ?_
  have hzx := hall _ (List.mem_map_of_mem hz)
  cases z with
  | none => exact absurd hzx.symm hne
  | some z => exact congrArg some hzx

/-! ## The invariant

`Copying` and what follows from it at once: copies are different, values of their own are different,
and an operation without a value has none of its own. -/

/-- The value that an operation has of its own, if `ρ` says whose value stands for each
operation. -/
def Assembler.own (a : Assembler) (ρ : OpIndex → OpIndex) (i : OpIndex) : Option OpIndex :=
  if ρ i = i then a.value? i else none

theorem Assembler.own_id (a : Assembler) : a.own id = a.value? := funext fun _ ↦ if_pos rfl

theorem Assembler.own_of_eq {a : Assembler} {ρ : OpIndex → OpIndex} {i : OpIndex} (h : ρ i = i) :
    a.own ρ i = a.value? i := if_pos h

theorem Assembler.own_eq_some {a : Assembler} {ρ : OpIndex → OpIndex} {i v : OpIndex} :
    a.own ρ i = some v ↔ ρ i = i ∧ a.value? i = some v := by
  rw [own]
  split
  · rename_i h
    simp [h]
  · rename_i h
    simp [h]

/-- The maps of an assembler grow from `a` to `a'`, inside one block. -/
structure Assembler.Grows (a a' : Assembler) : Prop where
  copy : ∀ {b c : BlockIndex}, a.copy? b = some c → a'.copy? b = some c
  value : ∀ {i v : OpIndex}, a.value? i = some v → a'.value? i = some v
  filled_eq : a'.filled = a.filled
  bound : ∀ {c : BlockIndex}, a'.output.bound = some c → a.output.bound = some c

theorem Assembler.Grows.refl (a : Assembler) : a.Grows a :=
  ⟨fun h ↦ h, fun h ↦ h, rfl, fun h ↦ h⟩

theorem Assembler.Grows.trans {a a₁ a' : Assembler} (h : a.Grows a₁) (h' : a₁.Grows a') :
    a.Grows a' :=
  ⟨fun hc ↦ h'.copy (h.copy hc), fun hv ↦ h'.value (h.value hv), h'.filled_eq.trans h.filled_eq,
    fun hc ↦ h.bound (h'.bound hc)⟩

/-- A phi of a merge that is forwarded: `ρ` takes it to another operation, and all of its inputs
have the value that stands for it. -/
structure ForwardedPhi (g : Graph) (s : Liveness) (a : Assembler) (i : OpIndex) (b c : BlockIndex)
    (blk : Block) (op : Operation) (v : OpIndex) (inputs : List OpIndex) : Prop where
  mem : i ∈ (g.span b).toList
  copy : a.copy? b = some c
  block : g.blocks[b]? = some blk
  isLoop : blk.isLoop = false
  op_eq : g.ops[i]? = some op
  isPhi : op.isPhi = true
  isLive : s.isLive i = true
  value : a.value? i = some v
  inputs_eq : ∀ w ∈ inputs, w = v
  matched : PhiMatched g a.output a.copy? a.value? b c op { op with inputs }

theorem ForwardedPhi.mono {g : Graph} {s : Liveness} {a a' : Assembler} {i v : OpIndex}
    {b c : BlockIndex} {blk : Block} {op : Operation} {inputs : List OpIndex}
    (h : ForwardedPhi g s a i b c blk op v inputs)
    (hpreds : a'.output.predecessors c = a.output.predecessors c)
    (hcopy : ∀ {b c}, a.copy? b = some c → a'.copy? b = some c)
    (hvalue : ∀ {i v}, a.value? i = some v → a'.value? i = some v) :
    ForwardedPhi g s a' i b c blk op v inputs :=
  { h with
    copy := hcopy h.copy
    value := hvalue h.value
    matched := h.matched.mono hpreds hcopy hvalue }

/-- Source and copy while blocks up to `n` are copied. -/
structure Copying (g : Graph) (s : Liveness) (forwardPhis : Bool) (ρ : OpIndex → OpIndex)
    (n : BlockIndex) (a : Assembler) : Prop where
  source_eq : a.source = g
  opMap_size : a.opMap.size = g.opCount
  blockMap_size : a.blockMap.size = g.blockCount
  sound : a.output.Sound
  origin_size : a.origin.size = a.output.blockCount
  copy_iff : ∀ {b c : BlockIndex}, a.copy? b = some c ↔ a.origin[c]? = some b
  plain : forwardPhis = false → ρ = id
  root : ∀ i, ρ (ρ i) = ρ i
  value_root : ∀ i, a.value? (ρ i) = a.value? i
  span : ∀ {b c : BlockIndex}, a.copy? b = some c →
    (a.output.span c).toList = (g.span b).toList.filterMap (a.own ρ)
  owner : ∀ {i v : OpIndex}, a.value? i = some v → ∃ b c, i ∈ (g.span b).toList ∧ b ≤ n ∧
    a.copy? b = some c
  image : ∀ {i v : OpIndex} {op : Operation}, a.own ρ i = some v → g.ops[i]? = some op →
    ∃ op', a.output.ops[v]? = some op' ∧ Image s a.copy? a.value? i op op'
  phi : ∀ {i v : OpIndex} {op op' : Operation} {b c : BlockIndex} {blk : Block},
    a.own ρ i = some v → i ∈ (g.span b).toList → g.ops[i]? = some op → op.isPhi = true →
    a.output.ops[v]? = some op' → a.copy? b = some c → g.blocks[b]? = some blk →
    blk.isLoop = false → PhiMatched g a.output a.copy? a.value? b c op op'
  /-- A phi of a merge that was not forwarded has different inputs. -/
  distinct : forwardPhis = true → ∀ {i v : OpIndex} {op op' : Operation} {b : BlockIndex}
    {blk : Block}, a.own ρ i = some v → i ∈ (g.span b).toList → g.ops[i]? = some op →
    op.isPhi = true → a.output.ops[v]? = some op' → g.blocks[b]? = some blk → blk.isLoop = false →
    ∀ x ∈ op'.inputs, x ≠ noHandle → ∃ y ∈ op'.inputs, y ≠ x
  waiting : ∀ {i v : OpIndex} {op : Operation} {b : BlockIndex} {blk : Block},
    a.own ρ i = some v → i ∈ (g.span b).toList → g.ops[i]? = some op → op.isPhi = true →
    g.blocks[b]? = some blk → blk.isLoop = true → (v, i) ∈ a.waiting.toList
  of_waiting : ∀ {i v : OpIndex}, (v, i) ∈ a.waiting.toList → a.own ρ i = some v ∧
    (∃ op, g.ops[i]? = some op ∧ op.isPhi = true) ∧
    ∃ b blk, i ∈ (g.span b).toList ∧ g.blocks[b]? = some blk ∧ blk.isLoop = true
  forwarded : ∀ {i : OpIndex}, ρ i ≠ i → ∃ b c blk op v inputs,
    ForwardedPhi g s a i b c blk op v inputs

namespace Copying

variable {g : Graph} {s : Liveness} {fwd : Bool} {ρ : OpIndex → OpIndex} {n : BlockIndex}
  {a a' : Assembler}

theorem paired (h : Copying g s fwd ρ n a) : a.Paired := ⟨h.origin_size, h.copy_iff⟩

theorem copy_inj (h : Copying g s fwd ρ n a) {b b' c : BlockIndex} (hb : a.copy? b = some c)
    (hb' : a.copy? b' = some c) : b = b' := h.paired.copy_inj hb hb'

theorem copy_lt (h : Copying g s fwd ρ n a) {b c : BlockIndex} (hb : a.copy? b = some c) :
    c < a.output.blockCount := h.paired.copy_lt hb

theorem value_mem (h : Copying g s fwd ρ n a) {i v : OpIndex} {b c : BlockIndex}
    (hv : a.own ρ i = some v) (hi : i ∈ (g.span b).toList) (hc : a.copy? b = some c) :
    v ∈ (a.output.span c).toList := by
  rw [h.span hc]
  exact List.mem_filterMap.mpr ⟨i, hi, hv⟩

/-- Different operations have different values of their own. -/
theorem value_inj (h : Copying g s fwd ρ n a) {i j v : OpIndex} (hi : a.own ρ i = some v)
    (hj : a.own ρ j = some v) : i = j := by
  obtain ⟨b, c, hib, -, hc⟩ := h.owner (Assembler.own_eq_some.mp hi).2
  obtain ⟨b', c', hjb, -, hc'⟩ := h.owner (Assembler.own_eq_some.mp hj).2
  have hcc := h.sound.span_disjoint (h.value_mem hi hib hc) (h.value_mem hj hjb hc')
  have hbb : b = b' := h.copy_inj hc (hcc ▸ hc')
  have hnd := (a.output.span c).nodup_toList
  rw [h.span hc] at hnd
  exact eq_of_filterMap_nodup hnd hib (hbb ▸ hjb) hi hj

/-- The value that stands for an operation is the own one of the operation that `ρ` takes it to. -/
theorem own_root (h : Copying g s fwd ρ n a) (i : OpIndex) : a.own ρ (ρ i) = a.value? i := by
  rw [Assembler.own_of_eq (h.root i), h.value_root]

theorem root_eq (h : Copying g s fwd ρ n a) {i j v : OpIndex} (hi : a.value? i = some v)
    (hj : a.value? j = some v) : ρ i = ρ j :=
  h.value_inj ((h.own_root i).trans hi) ((h.own_root j).trans hj)

/-- What has no value was not forwarded. -/
theorem root_of_none (h : Copying g s fwd ρ n a) {i : OpIndex} (hi : a.value? i = none) :
    ρ i = i := by
  by_contra hne
  obtain ⟨b, c, blk, op, v, inputs, hfwd⟩ := h.forwarded hne
  rw [hfwd.value] at hi
  cases hi

theorem value_lt (h : Copying g s fwd ρ n a) {i v : OpIndex} (hv : a.value? i = some v) :
    v < a.output.opCount := by
  rw [← h.own_root] at hv
  obtain ⟨b, c, hi, -, hc⟩ := h.owner (Assembler.own_eq_some.mp hv).2
  exact h.sound.lt_of_mem_span (h.value_mem hv hi hc)

/-- What has no value stands for no other operation. -/
theorem root_ne (h : Copying g s fwd ρ n a) {i j : OpIndex} (hi : a.value? i = none) (hne : j ≠ i) :
    ρ j ≠ i := by
  intro heq
  have hj : a.value? j = none := by rw [← h.value_root, heq, hi]
  exact hne ((h.root_of_none hj).symm.trans heq)

theorem op_lt (h : Copying g s fwd ρ n a) {i : OpIndex} {op : Operation}
    (hop : g.ops[i]? = some op) :
    i < a.opMap.size := by
  rw [h.opMap_size]
  exact Graph.lt_opCount hop

/-- The operations of a block without a copy have no values. -/
theorem value_eq_none (hg : g.Sound) (h : Copying g s fwd ρ n a) {b : BlockIndex}
    (hb : a.copy? b = none) {i : OpIndex} (hi : i ∈ (g.span b).toList) : a.value? i = none := by
  by_contra hne
  obtain ⟨v, hv⟩ := Option.ne_none_iff_exists'.mp hne
  obtain ⟨b', c, hi', -, hc⟩ := h.owner hv
  rw [hg.span_disjoint hi hi', hc] at hb
  cases hb

end Copying

end Flowgraph
