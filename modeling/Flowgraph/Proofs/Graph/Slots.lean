import Flowgraph.Proofs.Graph.Sound
import Mathlib.Data.List.Induction

/-!
# Slots of incoming edges

A phi has one input for each incoming edge of its block. The slot of an edge is its position among
the predecessors of the target. A branch whose sides coincide has two slots in its target, so that
a predecessor alone does not name an edge: the edge over which a block is entered is the first,
second and so on of those from one predecessor.

Pairs of a predecessor and an input may be sorted by predecessor. The sort is stable, and the pairs
with one predecessor are those in its slots, so that a sorted list is known by what it has there.
-/

namespace Flowgraph

/-! ## Positions

The positions of a value in a list rise, and there are as many as the value has occurrences. What
stands at the positions of one list can be picked out of another one of the same length. -/

/-- The positions at which `x` stands in a list. -/
def positionsOf (l : List Nat) (x : Nat) : List Nat := (l.zipIdx.filter (·.1 = x)).map Prod.snd

theorem positionsOf_concat (l : List Nat) (x y : Nat) :
    positionsOf (l ++ [y]) x = positionsOf l x ++ if y = x then [l.length] else [] := by
  rw [positionsOf, List.zipIdx_append, List.filter_append, List.map_append, positionsOf]
  congr 1
  by_cases hy : y = x <;> simp [hy]

theorem length_positionsOf (l : List Nat) (x : Nat) : (positionsOf l x).length = l.count x := by
  induction l using List.reverseRecOn with
  | nil => rfl
  | append_singleton l y ih =>
    rw [positionsOf_concat, List.length_append, ih, List.count_append, List.count_singleton]
    by_cases hy : y = x <;> simp [hy]

/-- The occurrence with number `r` is the one in front of which there are `r` others. -/
theorem getElem?_positionsOf {l : List Nat} {x r q : Nat} :
    (positionsOf l x)[r]? = some q ↔ l[q]? = some x ∧ (l.take q).count x = r := by
  induction l using List.reverseRecOn with
  | nil => simp [positionsOf]
  | append_singleton l y ih =>
    rw [positionsOf_concat]
    have hlen := length_positionsOf l x
    constructor
    · intro h
      by_cases hr : r < (positionsOf l x).length
      · rw [List.getElem?_append_left hr, ih] at h
        have hq : q < l.length := (List.getElem?_eq_some_iff.mp h.1).1
        rw [List.getElem?_append_left hq, List.take_append_of_le_length (Nat.le_of_lt hq)]
        exact h
      · rw [List.getElem?_append_right (Nat.not_lt.mp hr)] at h
        by_cases hy : y = x
        · rw [if_pos hy, List.getElem?_singleton] at h
          split at h
          · rename_i hzero
            cases h
            rw [List.getElem?_concat_length, List.take_left, hy]
            exact ⟨rfl, by omega⟩
          · cases h
        · rw [if_neg hy] at h
          cases h
    · rintro ⟨hget, hcount⟩
      by_cases hq : q < l.length
      · rw [List.getElem?_append_left hq] at hget
        rw [List.take_append_of_le_length (Nat.le_of_lt hq)] at hcount
        have h := ih.mpr ⟨hget, hcount⟩
        rwa [List.getElem?_append_left (List.getElem?_eq_some_iff.mp h).1]
      · have hq' : q = l.length := by
          have := (List.getElem?_eq_some_iff.mp hget).1
          rw [List.length_append, List.length_singleton] at this
          omega
        subst hq'
        rw [List.getElem?_concat_length, Option.some.injEq] at hget
        rw [List.take_left] at hcount
        rw [if_pos hget, List.getElem?_append_right (by omega), hlen, hcount, Nat.sub_self]
        rfl

/-- Where distinct elements stay distinct, a map keeps positions. -/
theorem positionsOf_map {l : List Nat} {f : Nat → Nat} {x : Nat}
    (h : ∀ y ∈ l, f y = f x → y = x) : positionsOf (l.map f) (f x) = positionsOf l x := by
  induction l using List.reverseRecOn with
  | nil => rfl
  | append_singleton l y ih =>
    rw [List.map_append, List.map_singleton, positionsOf_concat, positionsOf_concat,
      ih fun z hz ↦ h z (List.mem_append_left _ hz), List.length_map]
    have hiff : f y = f x ↔ y = x := ⟨h y (by simp), fun heq ↦ by rw [heq]⟩
    by_cases hy : y = x <;> simp [hiff, hy]

/-- Of two lists side by side, the pairs with `x` on the left are found at the positions of `x`. -/
theorem getElem?_filter_zip {α : Type} {x : Nat} {l : List Nat} :
    ∀ {m : List α}, m.length = l.length → ∀ r : Nat, ((l.zip m).filter (·.1 = x))[r]? =
      (positionsOf l x)[r]?.bind fun k : Nat ↦ m[k]?.map (Prod.mk x) := by
  induction l using List.reverseRecOn with
  | nil => simp [positionsOf]
  | append_singleton l y ih =>
    intro m hlen r
    obtain rfl | ⟨m, z, rfl⟩ := List.eq_nil_or_concat' m
    · simp at hlen
    rw [List.length_append, List.length_append, List.length_singleton, List.length_singleton,
      Nat.add_right_cancel_iff] at hlen
    have hcount : ((l.zip m).filter (·.1 = x)).length = (positionsOf l x).length := by
      calc ((l.zip m).filter (·.1 = x)).length
          = ((l.zip m).map Prod.fst).count x := by
            rw [List.count_eq_countP, List.countP_map, List.countP_eq_length_filter]
            rfl
        _ = (positionsOf l x).length := by
            rw [List.map_fst_zip (Nat.le_of_eq hlen.symm), length_positionsOf]
    rw [List.zip_append hlen.symm, List.filter_append, positionsOf_concat]
    by_cases hr : r < (positionsOf l x).length
    · rw [List.getElem?_append_left (hcount ▸ hr), List.getElem?_append_left hr, ih hlen,
        List.getElem?_eq_getElem hr, Option.bind_some, Option.bind_some]
      have hk := (getElem?_positionsOf.mp (List.getElem?_eq_getElem hr)).1
      rw [List.getElem?_append_left (hlen ▸ (List.getElem?_eq_some_iff.mp hk).1)]
    · rw [List.getElem?_append_right (hcount ▸ Nat.not_lt.mp hr),
        List.getElem?_append_right (Nat.not_lt.mp hr), hcount]
      by_cases hy : y = x
      · cases hd : r - (positionsOf l x).length <;> simp [hy, ← hlen]
      · simp [hy]

/-! ## Pairs sorted by what stands on the left

A stable sort is determined by the sublists of equal keys. Two sorted lists that agree on each of
these are equal. -/

section Sorting

variable {α : Type} {l l' : List (Nat × α)}

private theorem mem_iff_of_filter_fst (h : ∀ x, l.filter (·.1 = x) = l'.filter (·.1 = x))
    (e : Nat × α) : e ∈ l ↔ e ∈ l' := by
  have hiff := congrArg (e ∈ ·) (h e.1)
  simpa using hiff

/-- Sorted lists are the same if they have the same pairs, in the same order where the left sides
agree. -/
private theorem eq_of_filter_fst : ∀ {l l' : List (Nat × α)}, l.Pairwise (·.1 ≤ ·.1) →
    l'.Pairwise (·.1 ≤ ·.1) → (∀ x, l.filter (·.1 = x) = l'.filter (·.1 = x)) → l = l'
  | [], l', _, _, h => (List.eq_nil_iff_forall_not_mem.mpr fun e he ↦
      List.not_mem_nil ((mem_iff_of_filter_fst h e).mpr he)).symm
  | e :: l, [], _, _, h =>
    absurd ((mem_iff_of_filter_fst h e).mp List.mem_cons_self) List.not_mem_nil
  | e :: l, e' :: l', hl, hl', h => by
    have hleast : ∀ {d d' : Nat × α} {k : List (Nat × α)}, (d :: k).Pairwise (·.1 ≤ ·.1) →
        d' ∈ d :: k → d.1 ≤ d'.1 := fun hk hmem ↦ by
      rcases List.mem_cons.mp hmem with rfl | hmem
      · exact Nat.le_refl _
      · exact List.rel_of_pairwise_cons hk hmem
    have hfst : e'.1 = e.1 := Nat.le_antisymm
      (hleast hl' ((mem_iff_of_filter_fst h e).mp List.mem_cons_self))
      (hleast hl ((mem_iff_of_filter_fst h e').mpr List.mem_cons_self))
    have hfirst := h e.1
    rw [List.filter_cons_of_pos (by simp), List.filter_cons_of_pos (by simp [hfst])] at hfirst
    obtain rfl := (List.cons.inj hfirst).1
    rw [eq_of_filter_fst hl.of_cons hl'.of_cons fun x ↦ ?_]
    have hx := h x
    rw [List.filter_cons, List.filter_cons] at hx
    split at hx
    · exact (List.cons.inj hx).2
    · exact hx

/-- A list of pairs is the sorted one if it is sorted, and in the old order where the left sides
agree. -/
theorem eq_mergeSort_fst (hsorted : l'.Pairwise (·.1 ≤ ·.1))
    (h : ∀ x, l'.filter (·.1 = x) = l.filter (·.1 = x)) :
    l' = l.mergeSort fun e e' ↦ e.1 ≤ e'.1 := by
  have htrans : ∀ e e' e'' : Nat × α, decide (e.1 ≤ e'.1) = true → decide (e'.1 ≤ e''.1) = true →
      decide (e.1 ≤ e''.1) = true := fun e e' e'' h h' ↦
    decide_eq_true (Nat.le_trans (of_decide_eq_true h) (of_decide_eq_true h'))
  have htotal : ∀ e e' : Nat × α, (decide (e.1 ≤ e'.1) || decide (e'.1 ≤ e.1)) = true :=
    fun e e' ↦ by simpa using Nat.le_total e.1 e'.1
  refine eq_of_filter_fst hsorted
    ((List.pairwise_mergeSort htrans htotal l).imp of_decide_eq_true) fun x ↦ (h x).trans ?_
  -- sorting is stable, so that the pairs with `x` on the left are still in order
  have hpairs : (l.filter (·.1 = x)).Pairwise fun e e' ↦ decide (e.1 ≤ e'.1) = true := by
    refine List.Pairwise.imp_of_mem (R := fun _ _ ↦ True) (fun he he' _ ↦ ?_)
      (List.pairwise_of_forall fun _ _ ↦ trivial)
    simp_all
  have hsub := (List.sublist_mergeSort htrans htotal hpairs List.filter_sublist).filter (·.1 = x)
  rw [List.filter_filter] at hsub
  simp only [Bool.and_self] at hsub
  exact hsub.eq_of_length ((List.mergeSort_perm l _).filter _).length_eq.symm

end Sorting

/-! ## Slots -/

namespace Graph

/-- The slots in block `b` of the edges from block `p`. -/
def slots (g : Graph) (b p : BlockIndex) : List Nat := positionsOf (g.predecessors b) p

theorem length_slots {g : Graph} (hg : g.Sound) (b p : BlockIndex) :
    (g.slots b p).length = (g.successors p).count b := by
  rw [slots, length_positionsOf, hg.count_predecessors_eq]

end Graph

end Flowgraph
