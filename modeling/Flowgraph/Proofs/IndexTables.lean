import Flowgraph.IndexMap
import Flowgraph.IndexSet
import Mathlib.Data.List.Nodup
import Mathlib.Data.List.Perm.Subperm

/-!
# Sparse tables hold what was put in

The sparse half of a table is never cleaned, so that most of its entries mean nothing. What makes
a look-up right is that the dense half confirms it. For sets nothing more is needed; for maps,
where removal moves the last entry into the gap, every entry of the dense half has to be the one
that the sparse half points to.
-/

namespace Flowgraph

namespace IndexSet

theorem contains_iff {s : IndexSet} {k : Nat} :
    s.contains k = true ↔ ∃ i, s.sparse[k]? = some i ∧ s.dense[i]? = some k := by
  rw [contains]
  cases s.sparse[k]? <;> simp

private theorem lt_capacity {s : IndexSet} {k : Nat} (h : s.contains k = true) :
    k < s.capacity := by
  obtain ⟨i, hi, -⟩ := contains_iff.mp h
  exact (Array.getElem?_eq_some_iff.mp hi).1

theorem mem_of_contains {s : IndexSet} {k : Nat} (h : s.contains k = true) : k ∈ s.toList := by
  obtain ⟨i, -, hk⟩ := contains_iff.mp h
  exact Array.mem_toList_iff.mpr (Array.mem_of_getElem? hk)

@[simp] theorem capacity_empty (n : Nat) : (empty n).capacity = n := Array.size_replicate

@[simp] theorem capacity_insert (s : IndexSet) (k : Nat) : (s.insert k).capacity = s.capacity := by
  rw [insert]
  split
  · rfl
  · rw [capacity, Array.size_setIfInBounds, capacity]

theorem insert_of_contains {s : IndexSet} {k : Nat} (h : s.contains k = true) : s.insert k = s := by
  rw [insert, h]
  rfl

theorem insert_of_new {s : IndexSet} {k : Nat} (h : s.contains k = false) (hk : k < s.capacity) :
    s.insert k = ⟨s.dense.push k, s.sparse.setIfInBounds k s.dense.size⟩ := by
  rw [insert, h, Bool.false_or, if_neg (by simpa using hk)]

/-- An entry of the sparse half that points behind the dense half is confirmed by nothing, also
after the next insertion. -/
theorem contains_insert {s : IndexSet} {k : Nat} (hk : k < s.capacity) (j : Nat) :
    (s.insert k).contains j = true ↔ j = k ∨ s.contains j = true := by
  by_cases hc : s.contains k = true
  · rw [insert_of_contains hc]
    constructor
    · exact Or.inr
    · rintro (rfl | h)
      · exact hc
      · exact h
  · rw [insert_of_new (by simpa using hc) hk, contains_iff, contains_iff]
    by_cases hj : j = k
    · subst hj
      simp only [true_or, iff_true]
      exact ⟨s.dense.size, Array.getElem?_setIfInBounds_self_of_lt hk, Array.getElem?_push_size⟩
    · rw [Array.getElem?_setIfInBounds_ne (Ne.symm hj)]
      simp only [hj, false_or]
      refine exists_congr fun i ↦ and_congr_right fun _ ↦ ?_
      rw [Array.getElem?_push]
      split
      · rename_i hi
        subst hi
        simp [Ne.symm hj]
      · rfl

/-- Every element of the dense half is confirmed, and none stands there twice. -/
structure Tidy (s : IndexSet) : Prop where
  nodup : s.toList.Nodup
  contains : ∀ k ∈ s.toList, s.contains k = true

theorem tidy_empty (n : Nat) : (empty n).Tidy := ⟨List.nodup_nil, fun _ h ↦ by cases h⟩

theorem Tidy.mem_iff {s : IndexSet} (h : s.Tidy) {k : Nat} :
    k ∈ s.toList ↔ s.contains k = true := ⟨h.contains k, mem_of_contains⟩

theorem Tidy.insert {s : IndexSet} (h : s.Tidy) {k : Nat} (hk : k < s.capacity) :
    (s.insert k).Tidy := by
  by_cases hc : s.contains k = true
  · rwa [insert_of_contains hc]
  · have hlist : (s.insert k).toList = s.toList ++ [k] := by
      rw [insert_of_new (by simpa using hc) hk, toList, Array.toList_push, toList]
    constructor
    · rw [hlist, List.nodup_append_comm, List.singleton_append, List.nodup_cons]
      exact ⟨fun hmem ↦ hc (h.contains k hmem), h.nodup⟩
    · intro j hj
      rw [hlist, List.mem_append, List.mem_singleton] at hj
      rw [contains_insert hk]
      exact hj.symm.imp_right (h.contains j)

theorem Tidy.size_le {s : IndexSet} (h : s.Tidy) : s.size ≤ s.capacity := by
  have hsub : s.toList ⊆ List.range s.capacity := fun k hk ↦
    List.mem_range.mpr (lt_capacity (h.contains k hk))
  have := (List.subperm_of_subset h.nodup hsub).length_le
  rwa [List.length_range] at this

end IndexSet

namespace IndexMap

variable {α : Type} {m : IndexMap α}

theorem slot?_eq_some {k i : Nat} :
    m.slot? k = some i ↔ m.sparse[k]? = some i ∧ ∃ v, m.dense[i]? = some (k, v) := by
  rw [slot?]
  cases hs : m.sparse[k]? with
  | none => simp
  | some j =>
    have hkey : (m.dense[j]?.map Prod.fst == some k) = true ↔ ∃ v, m.dense[j]? = some (k, v) := by
      simp [beq_iff_eq, Option.map_eq_some_iff]
    simp only [Option.some.injEq]
    split
    · rename_i h
      rw [Option.some.injEq]
      exact ⟨fun heq ↦ ⟨heq, heq ▸ hkey.mp h⟩, fun heq ↦ heq.1⟩
    · rename_i h
      simp only [reduceCtorEq, false_iff, not_and]
      exact fun heq ↦ heq ▸ mt hkey.mpr h

/-- The sparse half points to every entry of the dense half. -/
def Tidy (m : IndexMap α) : Prop :=
  ∀ {i k : Nat} {v : α}, m.dense[i]? = some (k, v) → m.sparse[k]? = some i

theorem tidy_empty (n : Nat) : (empty n : IndexMap α).Tidy := by
  intro i k v h
  simp [empty] at h

theorem get?_eq_some (h : m.Tidy) {k : Nat} {v : α} :
    m.get? k = some v ↔ ∃ i : Nat, m.dense[i]? = some (k, v) := by
  rw [get?]
  constructor
  · intro hv
    cases hs : m.slot? k with
    | none => simp [hs] at hv
    | some i =>
      obtain ⟨-, w, hw⟩ := slot?_eq_some.mp hs
      rw [hs, Option.bind_some, hw, Option.map_some, Option.some.injEq] at hv
      exact ⟨i, hv ▸ hw⟩
  · rintro ⟨i, hi⟩
    rw [slot?_eq_some.mpr ⟨h hi, v, hi⟩, Option.bind_some, hi]
    rfl

theorem slot?_eq_none (h : m.Tidy) {k : Nat} (hs : m.slot? k = none) {i : Nat} {v : α} :
    m.dense[i]? ≠ some (k, v) := by
  intro hi
  rw [slot?_eq_some.mpr ⟨h hi, v, hi⟩] at hs
  cases hs

@[simp] theorem capacity_insert (m : IndexMap α) (k : Nat) (v : α) :
    (m.insert k v).capacity = m.capacity := by
  rw [insert]
  split
  · rfl
  · split
    · rfl
    · rw [capacity, Array.size_setIfInBounds, capacity]

@[simp] theorem capacity_erase (m : IndexMap α) (k : Nat) : (m.erase k).capacity = m.capacity := by
  rw [erase]
  split
  · rw [capacity, Array.size_setIfInBounds, capacity]
  · rfl

/-- An insertion writes one entry, in the place where the key stands or behind all others. -/
theorem exists_place (h : m.Tidy) {k : Nat} (hk : k < m.capacity) (v : α) : ∃ q : Nat,
    (∀ p : Nat, (m.insert k v).dense[p]? = if p = q then some (k, v) else m.dense[p]?) ∧
      (m.insert k v).sparse[k]? = some q ∧
      (∀ j ≠ k, (m.insert k v).sparse[j]? = m.sparse[j]?) ∧
      ∀ {p j : Nat} {w : α}, m.dense[p]? = some (j, w) → (j = k ↔ p = q) := by
  rw [insert]
  cases hs : m.slot? k with
  | some i =>
    obtain ⟨hi, u, hu⟩ := slot?_eq_some.mp hs
    have hlt : i < m.dense.size := (Array.getElem?_eq_some_iff.mp hu).1
    refine ⟨i, fun p ↦ ?_, hi, fun _ _ ↦ rfl, fun {p j w} hp ↦ ⟨?_, ?_⟩⟩
    · by_cases hp : p = i
      · rw [if_pos hp, hp]
        exact Array.getElem?_setIfInBounds_self_of_lt hlt
      · rw [if_neg hp]
        exact Array.getElem?_setIfInBounds_ne (Ne.symm hp)
    · rintro rfl
      exact Option.some.inj ((h hp).symm.trans hi)
    · rintro rfl
      rw [hu] at hp
      cases hp
      rfl
  | none =>
    rw [if_neg (Nat.not_le.mpr hk)]
    refine ⟨m.dense.size, fun _ ↦ Array.getElem?_push,
      Array.getElem?_setIfInBounds_self_of_lt hk,
      fun j hj ↦ Array.getElem?_setIfInBounds_ne (Ne.symm hj), fun {p j w} hp ↦ ⟨?_, ?_⟩⟩
    · rintro rfl
      exact absurd hp (slot?_eq_none h hs)
    · rintro rfl
      exact absurd (Array.getElem?_eq_some_iff.mp hp).1 (Nat.lt_irrefl _)

theorem Tidy.insert (h : m.Tidy) {k : Nat} (hk : k < m.capacity) (v : α) :
    (m.insert k v).Tidy := by
  obtain ⟨q, hget, hself, hother, hkey⟩ := exists_place h hk v
  intro p j w hp
  rw [hget] at hp
  split at hp
  · rename_i hpq
    cases hp
    rw [hpq]
    exact hself
  · rename_i hpq
    rw [hother j (mt (hkey hp).mp hpq)]
    exact h hp

private theorem dense_insert (h : m.Tidy) {k : Nat} (hk : k < m.capacity) (v : α) (j : Nat)
    (w : α) : (∃ i : Nat, (m.insert k v).dense[i]? = some (j, w)) ↔
      if j = k then w = v else ∃ i : Nat, m.dense[i]? = some (j, w) := by
  obtain ⟨q, hget, -, -, hkey⟩ := exists_place h hk v
  simp only [hget]
  split
  · rename_i hjk
    constructor
    · rintro ⟨p, hp⟩
      split at hp
      · cases hp
        rfl
      · rename_i hpq
        exact absurd ((hkey hp).mp hjk) hpq
    · rintro rfl
      exact ⟨q, by rw [if_pos rfl, hjk]⟩
  · rename_i hjk
    refine exists_congr fun p ↦ ?_
    split
    · rename_i hpq
      refine ⟨fun heq ↦ ?_, fun hp ↦ absurd ((hkey hp).mpr hpq) hjk⟩
      cases heq
      exact absurd rfl hjk
    · rfl

theorem get?_insert (h : m.Tidy) {k : Nat} (hk : k < m.capacity) (v : α) (j : Nat) :
    (m.insert k v).get? j = if j = k then some v else m.get? j := by
  refine Option.ext fun w ↦ ?_
  rw [get?_eq_some (h.insert hk v), dense_insert h hk]
  split
  · rw [Option.some.injEq, eq_comm]
  · rw [get?_eq_some h]

theorem erase_of_none {k : Nat} (hs : m.slot? k = none) : m.erase k = m := by
  rw [erase, hs]

/-- A removal moves the last entry into the gap. -/
theorem exists_gap (h : m.Tidy) {k i : Nat} (hs : m.slot? k = some i) :
    ∃ (n key : Nat) (value : α), m.dense.size = n + 1 ∧ i ≤ n ∧ m.dense[n]? = some (key, value) ∧
      (∀ p : Nat, (m.erase k).dense[p]? =
        if p < n then if p = i then some (key, value) else m.dense[p]? else none) ∧
      (m.erase k).sparse[key]? = some i ∧
      ∀ j ≠ key, (m.erase k).sparse[j]? = m.sparse[j]? := by
  obtain ⟨-, u, hu⟩ := slot?_eq_some.mp hs
  have hlt : i < m.dense.size := (Array.getElem?_eq_some_iff.mp hu).1
  obtain ⟨n, hn⟩ := Nat.exists_eq_succ_of_ne_zero (Nat.ne_zero_of_lt hlt)
  obtain ⟨⟨key, value⟩, hlast⟩ : ∃ last, m.dense[n]? = some last :=
    ⟨_, Array.getElem?_eq_getElem (by omega)⟩
  have hback : m.dense.back? = some (key, value) := by
    rw [Array.back?, hn]
    exact hlast
  have hkey : key < m.sparse.size := (Array.getElem?_eq_some_iff.mp (h hlast)).1
  rw [erase, hs, hback]
  refine ⟨n, key, value, hn, by omega, hlast, fun p ↦ ?_,
    Array.getElem?_setIfInBounds_self_of_lt hkey,
    fun j hj ↦ Array.getElem?_setIfInBounds_ne (Ne.symm hj)⟩
  rw [Array.getElem?_pop, Array.size_setIfInBounds, hn, Nat.succ_sub_one]
  by_cases hp : p = i
  · rw [if_pos hp, hp, Array.getElem?_setIfInBounds_self_of_lt hlt]
  · rw [if_neg hp, Array.getElem?_setIfInBounds_ne (Ne.symm hp)]

theorem Tidy.erase (h : m.Tidy) (k : Nat) : (m.erase k).Tidy := by
  cases hs : m.slot? k with
  | none =>
    rw [erase_of_none hs]
    exact h
  | some i =>
    obtain ⟨n, key, value, -, -, hlast, hget, hself, hother⟩ := exists_gap h hs
    intro p j w hp
    rw [hget] at hp
    split at hp
    · rename_i hpn
      split at hp
      · rename_i hpi
        cases hp
        rw [hpi]
        exact hself
      · -- the last entry is the only one with its key
        have hne : j ≠ key := by
          rintro rfl
          exact absurd (Option.some.inj ((h hp).symm.trans (h hlast))) (Nat.ne_of_lt hpn)
        rw [hother j hne]
        exact h hp
    · cases hp

private theorem dense_erase (h : m.Tidy) (k j : Nat) (w : α) :
    (∃ i : Nat, (m.erase k).dense[i]? = some (j, w)) ↔
      j ≠ k ∧ ∃ i : Nat, m.dense[i]? = some (j, w) := by
  cases hs : m.slot? k with
  | none =>
    rw [erase_of_none hs]
    refine ⟨fun ⟨i, hi⟩ ↦ ⟨?_, i, hi⟩, fun hj ↦ hj.2⟩
    rintro rfl
    exact slot?_eq_none h hs hi
  | some i =>
    obtain ⟨hi, u, hu⟩ := slot?_eq_some.mp hs
    obtain ⟨n, key, value, hn, hle, hlast, hget, -, -⟩ := exists_gap h hs
    simp only [hget]
    constructor
    · rintro ⟨p, hp⟩
      split at hp
      · rename_i hpn
        split at hp
        · rename_i hpi
          cases hp
          refine ⟨?_, n, hlast⟩
          rintro rfl
          exact absurd (Option.some.inj (hi.symm.trans (h hlast))) (Nat.ne_of_lt (hpi ▸ hpn))
        · rename_i hpi
          refine ⟨?_, p, hp⟩
          rintro rfl
          exact hpi (Option.some.inj ((h hp).symm.trans hi))
      · cases hp
    · rintro ⟨hjk, p, hp⟩
      have hpi : p ≠ i := by
        rintro rfl
        rw [hu] at hp
        cases hp
        exact hjk rfl
      have hps : p < m.dense.size := (Array.getElem?_eq_some_iff.mp hp).1
      by_cases hpn : p = n
      · -- the last entry is in the gap now
        rw [hpn, hlast] at hp
        exact ⟨i, by rw [if_pos (by omega), if_pos rfl, hp]⟩
      · exact ⟨p, by rw [if_pos (by omega), if_neg hpi, hp]⟩

theorem get?_erase (h : m.Tidy) (k j : Nat) :
    (m.erase k).get? j = if j = k then none else m.get? j := by
  refine Option.ext fun w ↦ ?_
  rw [get?_eq_some (h.erase k), dense_erase h]
  split
  · rename_i hjk
    simp [hjk]
  · rename_i hjk
    rw [get?_eq_some h]
    simp [hjk]

end IndexMap

end Flowgraph
