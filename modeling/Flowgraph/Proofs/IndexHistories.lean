import Flowgraph.Breach
import Flowgraph.Proofs.IndexTables
import Mathlib.Data.Finmap

/-!
# Histories of sparse tables

A table lives through a history of insertions, removals and clearings. After every history a set
of small numbers answers as the finite set that the same history makes, and a map as the finite map,
about keys inside and outside its universe. The dense half holds every element once, and in order of
insertion if nothing was removed since the beginning.

A set is a map to the one value `()`, with the same places, so that what a history does is followed
for maps only.

## Places of 32 bits

The places in the sparse half are kept in signed words of 32 bits, so that a place of 2 ^ 31 or more
would come out as a negative number, and reading there would be a fault. An element gets the place
behind all others, which are different and lie in the universe. A universe of up to 2 ^ 31 numbers
therefore has no such place, and a table of words goes through the same states as one of numbers.
-/

namespace Flowgraph

/-- A change of a table with entries of type `ε`. -/
inductive Edit (ε : Type) where
  | put (entry : ε)
  | erase (k : Nat)
  | clear

namespace Edit

variable {ε : Type}

/-- Every entry that is put has its key below `n`. -/
def Within (key : ε → Nat) (n : Nat) (edits : List (Edit ε)) : Prop :=
  ∀ e, put e ∈ edits → key e < n

/-- Notes the key of an entry that is put, also if it is there already. -/
def record (key : ε → Nat) (keys : List Nat) : Edit ε → List Nat
  | put e => keys ++ [key e]
  | erase _ => keys
  | clear => []

/-- The keys that were put since everything was removed last, oldest first. -/
def recorded (key : ε → Nat) (edits : List (Edit ε)) : List Nat := edits.foldl (record key) []

/-- The finite set after a change. -/
def changeSet (S : Finset Nat) : Edit Nat → Finset Nat
  | put k => insert k S
  | erase k => S.erase k
  | clear => ∅

/-- The finite set that a history makes. -/
def finset (edits : List (Edit Nat)) : Finset Nat := edits.foldl changeSet ∅

/-- The finite map after a change. -/
def changeMap {α : Type} (M : Finmap fun _ : Nat ↦ α) : Edit (Nat × α) → Finmap fun _ : Nat ↦ α
  | put (k, v) => M.insert k v
  | erase k => M.erase k
  | clear => ∅

/-- The finite map that a history makes. -/
def finmap {α : Type} (edits : List (Edit (Nat × α))) : Finmap fun _ : Nat ↦ α :=
  edits.foldl changeMap ∅

/-- The same change, of entries in another form. -/
def map {ε' : Type} (f : ε → ε') : Edit ε → Edit ε'
  | put e => put (f e)
  | erase k => erase k
  | clear => clear

theorem Within.left {key : ε → Nat} {n : Nat} {edits : List (Edit ε)} {e : Edit ε}
    (h : Within key n (edits ++ [e])) : Within key n edits :=
  fun entry hmem ↦ h entry (List.mem_append_left _ hmem)

theorem Within.last {key : ε → Nat} {n : Nat} {edits : List (Edit ε)} {entry : ε}
    (h : Within key n (edits ++ [put entry])) : key entry < n :=
  h entry (List.mem_append_right _ (List.mem_singleton_self _))

/-- Bounds on keys stay when the entries take another form with the same keys. -/
theorem Within.map {ε' : Type} {key : ε → Nat} {key' : ε' → Nat} {f : ε → ε'} {n : Nat}
    {edits : List (Edit ε)} (h : Within key n edits) (hkey : ∀ e, key' (f e) = key e) :
    Within key' n (edits.map (Edit.map f)) := by
  intro entry hmem
  obtain ⟨e, he, heq⟩ := List.mem_map.mp hmem
  cases e with
  | put e =>
    cases heq
    exact hkey e ▸ h e he
  | erase k => cases heq
  | clear => cases heq

private theorem erase_mem_map {ε' : Type} {f : ε → ε'} {edits : List (Edit ε)} {k : Nat}
    (h : erase k ∈ edits.map (Edit.map f)) : erase k ∈ edits := by
  obtain ⟨e, he, heq⟩ := List.mem_map.mp h
  cases e with
  | put e => cases heq
  | erase j =>
    cases heq
    exact he
  | clear => cases heq

private theorem map_id (edits : List (Edit ε)) : edits.map (Edit.map id) = edits := by
  rw [show Edit.map (id : ε → ε) = id by funext e; cases e <;> rfl, List.map_id]

end Edit

open Edit

/-! ## Maps

The entries stand in the order of their keys, and an insertion either puts a key behind all others
or leaves the keys as they are. So the keys of a map form a list without repetitions, and the place
of a key is its position in that list. `Kept` adds that the entries are those of the finite map that
the history makes; every change keeps it, and so does a whole history. -/

namespace IndexMap

variable {α : Type} {m : IndexMap α} {M : Finmap fun _ : Nat ↦ α} {n k : Nat}

/-- The map after a change. -/
def edit (m : IndexMap α) : Edit (Nat × α) → IndexMap α
  | .put (k, v) => m.insert k v
  | .erase k => m.erase k
  | .clear => m.clear

/-- The map over the numbers below `n` after a history. -/
def after (n : Nat) (edits : List (Edit (Nat × α))) : IndexMap α := edits.foldl edit (.empty n)

theorem after_concat (n : Nat) (edits : List (Edit (Nat × α))) (e : Edit (Nat × α)) :
    after n (edits ++ [e]) = (after n edits).edit e := by
  rw [after, List.foldl_append]
  rfl

/-- The keys of the entries, in the order in which these stand. -/
def keys (m : IndexMap α) : List Nat := m.toList.map Prod.fst

theorem getElem?_keys (m : IndexMap α) (i : Nat) : m.keys[i]? = m.dense[i]?.map Prod.fst := by
  rw [keys, List.getElem?_map, toList, Array.getElem?_toList]

theorem length_keys (m : IndexMap α) : m.keys.length = m.size := by
  rw [keys, List.length_map, toList, Array.length_toList, size]

theorem mem_toList {v : α} : (k, v) ∈ m.toList ↔ ∃ i : Nat, m.dense[i]? = some (k, v) := by
  simp only [toList, List.mem_iff_getElem?, Array.getElem?_toList]

theorem Tidy.mem_keys (h : m.Tidy) : k ∈ m.keys ↔ m.contains k = true := by
  rw [contains, Option.isSome_iff_exists, keys, List.mem_map]
  constructor
  · rintro ⟨⟨j, v⟩, hmem, rfl⟩
    obtain ⟨i, hi⟩ := mem_toList.mp hmem
    exact ⟨i, slot?_eq_some.mpr ⟨h hi, v, hi⟩⟩
  · rintro ⟨i, hi⟩
    obtain ⟨-, v, hv⟩ := slot?_eq_some.mp hi
    exact ⟨(k, v), mem_toList.mpr ⟨i, hv⟩, rfl⟩

/-- No key stands in the dense half twice, as the sparse half points to one place only. -/
theorem Tidy.nodup_keys (h : m.Tidy) : m.keys.Nodup := by
  rw [List.nodup_iff_getElem?_ne_getElem?]
  intro i j hij hj heq
  rw [getElem?_keys, getElem?_keys] at heq
  have hlt : j < m.dense.size := by rwa [length_keys] at hj
  obtain ⟨⟨k, v⟩, hv⟩ : ∃ e, m.dense[j]? = some e := ⟨_, Array.getElem?_eq_getElem hlt⟩
  rw [hv, Option.map_some, Option.map_eq_some_iff] at heq
  obtain ⟨⟨k', w⟩, hw, rfl⟩ := heq
  exact absurd (Option.some.inj ((h hw).symm.trans (h hv))) (Nat.ne_of_lt hij)

private theorem Tidy.lt_capacity (h : m.Tidy) (hk : k ∈ m.keys) : k < m.capacity := by
  obtain ⟨⟨j, v⟩, hmem, rfl⟩ := List.mem_map.mp hk
  obtain ⟨i, hi⟩ := mem_toList.mp hmem
  exact (Array.getElem?_eq_some_iff.mp (h hi)).1

private theorem Tidy.size_lt (h : m.Tidy) (hk : k < m.capacity) (hnew : k ∉ m.keys) :
    m.size < m.capacity := by
  have hsub : k :: m.keys ⊆ List.range m.capacity := fun j hj ↦ List.mem_range.mpr <| by
    rcases List.mem_cons.mp hj with rfl | hj
    · exact hk
    · exact h.lt_capacity hj
  have hle := (List.subperm_of_subset (List.nodup_cons.mpr ⟨hnew, h.nodup_keys⟩) hsub).length_le
  rw [List.length_cons, List.length_range, length_keys] at hle
  omega

theorem Tidy.slot?_eq_none_iff (h : m.Tidy) : m.slot? k = none ↔ k ∉ m.keys := by
  rw [h.mem_keys, contains, Option.isSome_iff_ne_none, not_not]

private theorem Tidy.keys_insert (h : m.Tidy) (hk : k < m.capacity) (v : α) :
    (m.insert k v).keys = if k ∈ m.keys then m.keys else m.keys ++ [k] := by
  rw [IndexMap.insert]
  cases hs : m.slot? k with
  | none =>
    rw [if_neg (h.slot?_eq_none_iff.mp hs), if_neg (Nat.not_le.mpr hk), keys, toList,
      Array.toList_push, List.map_append]
    rfl
  | some i =>
    obtain ⟨-, u, hu⟩ := slot?_eq_some.mp hs
    have hmem : k ∈ m.keys := h.mem_keys.mpr (by rw [contains, hs]; rfl)
    rw [if_pos hmem]
    refine List.ext_getElem? fun p ↦ ?_
    rw [getElem?_keys, getElem?_keys]
    change (m.dense.setIfInBounds i (k, v))[p]?.map Prod.fst = m.dense[p]?.map Prod.fst
    by_cases hp : p = i
    · rw [hp, Array.getElem?_setIfInBounds_self_of_lt (Array.getElem?_eq_some_iff.mp hu).1, hu]
      rfl
    · rw [Array.getElem?_setIfInBounds_ne (Ne.symm hp)]

private theorem contains_eq_isSome (m : IndexMap α) (k : Nat) :
    m.contains k = (m.get? k).isSome := by
  rw [contains, get?, Option.isSome_map]
  cases hs : m.slot? k with
  | none => rfl
  | some i =>
    obtain ⟨-, v, hv⟩ := slot?_eq_some.mp hs
    rw [Option.bind_some, hv]
    rfl

private theorem entry_eq (m : IndexMap α) (k : Nat) :
    (m.slot? k).bind (m.dense[·]?) = (m.get? k).map fun v ↦ (k, v) := by
  rw [get?]
  cases hs : m.slot? k with
  | none => rfl
  | some i =>
    obtain ⟨-, v, hv⟩ := slot?_eq_some.mp hs
    rw [Option.bind_some, hv]
    rfl

private theorem tidy_clear (m : IndexMap α) : m.clear.Tidy := by
  intro i k v h
  simp [clear] at h

/-- What a map over the numbers below `n` keeps along its history, next to the finite map. -/
structure Kept (n : Nat) (m : IndexMap α) (M : Finmap fun _ : Nat ↦ α) : Prop where
  capacity_eq : m.capacity = n
  tidy : m.Tidy
  get?_eq : ∀ k, m.get? k = M.lookup k
  place_lt : ∀ {k i : Nat}, m.sparse[k]? = some i → i < 2 ^ 31

private theorem kept_empty (n : Nat) : Kept n (empty n : IndexMap α) ∅ where
  capacity_eq := Array.size_replicate
  tidy := tidy_empty n
  get?_eq k := by
    rw [Finmap.lookup_empty]
    refine Option.eq_none_iff_forall_ne_some.mpr fun v hv ↦ ?_
    obtain ⟨i, hi⟩ := (get?_eq_some (tidy_empty n)).mp hv
    simp [empty] at hi
  place_lt {k i} hi := by
    rw [empty, Array.getElem?_replicate] at hi
    split at hi
    · cases hi
      exact Nat.two_pow_pos 31
    · cases hi

private theorem Kept.insert (h : Kept n m M) (hn : n ≤ 2 ^ 31) (hk : k < n) (v : α) :
    Kept n (m.insert k v) (M.insert k v) := by
  obtain ⟨hcap, htidy, hget, hplace⟩ := h
  have hk' : k < m.capacity := hcap.symm ▸ hk
  exact {
    capacity_eq := by rw [capacity_insert, hcap]
    tidy := htidy.insert hk' v
    get?_eq := fun j ↦ by
      rw [get?_insert htidy hk']
      split
      · rename_i hj
        rw [hj, Finmap.lookup_insert]
      · rename_i hj
        rw [hget, Finmap.lookup_insert_of_ne _ hj]
    place_lt := fun {j i} hi ↦ by
      rw [IndexMap.insert] at hi
      cases hs : m.slot? k with
      | some q =>
        rw [hs] at hi
        exact hplace hi
      | none =>
        have hsize := htidy.size_lt hk' (htidy.slot?_eq_none_iff.mp hs)
        rw [hs, if_neg (Nat.not_le.mpr hk')] at hi
        by_cases hj : j = k
        · rw [hj, Array.getElem?_setIfInBounds_self_of_lt hk', Option.some.injEq] at hi
          rw [size, hcap] at hsize
          omega
        · rw [Array.getElem?_setIfInBounds_ne (Ne.symm hj)] at hi
          exact hplace hi }

private theorem Kept.erase (h : Kept n m M) (k : Nat) : Kept n (m.erase k) (M.erase k) := by
  obtain ⟨hcap, htidy, hget, hplace⟩ := h
  exact {
    capacity_eq := by rw [capacity_erase, hcap]
    tidy := htidy.erase k
    get?_eq := fun j ↦ by
      rw [get?_erase htidy]
      split
      · rename_i hj
        rw [hj, Finmap.lookup_erase]
      · rename_i hj
        rw [hget, Finmap.lookup_erase_ne hj]
    place_lt := fun {j i} hi ↦ by
      cases hs : m.slot? k with
      | none =>
        rw [erase_of_none hs] at hi
        exact hplace hi
      | some q =>
        obtain ⟨_, key, _, _, _, _, _, hself, hother⟩ := exists_gap htidy hs
        by_cases hj : j = key
        · rw [hj, hself, Option.some.injEq] at hi
          exact hi ▸ hplace (slot?_eq_some.mp hs).1
        · rw [hother j hj] at hi
          exact hplace hi }

private theorem Kept.clear (h : Kept n m M) : Kept n m.clear ∅ where
  capacity_eq := h.capacity_eq
  tidy := tidy_clear m
  get?_eq k := by
    rw [Finmap.lookup_empty]
    refine Option.eq_none_iff_forall_ne_some.mpr fun v hv ↦ ?_
    obtain ⟨i, hi⟩ := (get?_eq_some (tidy_clear m)).mp hv
    simp [IndexMap.clear] at hi
  place_lt := h.place_lt

private theorem Kept.edit (h : Kept n m M) (hn : n ≤ 2 ^ 31) {e : Edit (Nat × α)}
    (he : ∀ entry, e = .put entry → entry.1 < n) : Kept n (m.edit e) (e.changeMap M) := by
  cases e with
  | put entry => exact h.insert hn (he _ rfl) entry.2
  | erase k => exact h.erase k
  | clear => exact h.clear

theorem kept_after (hn : n ≤ 2 ^ 31) {edits : List (Edit (Nat × α))}
    (h : Within Prod.fst n edits) : Kept n (after n edits) (finmap edits) := by
  induction edits using List.reverseRecOn with
  | nil => exact kept_empty n
  | append_singleton edits e ih =>
    rw [after_concat, finmap, List.foldl_append]
    refine (ih h.left).edit hn fun entry he ↦ ?_
    subst he
    exact h.last

/-- A map with the entries of a finite map, each of them once. -/
structure Represents (m : IndexMap α) (M : Finmap fun _ : Nat ↦ α) : Prop where
  get?_eq : ∀ k, m.get? k = M.lookup k
  contains_eq : ∀ k, m.contains k = decide (k ∈ M)
  size_eq : m.size = M.keys.card
  nodup : m.keys.Nodup
  mem_toList : ∀ k v, (k, v) ∈ m.toList ↔ M.lookup k = some v

theorem Kept.contains_eq (h : Kept n m M) (k : Nat) : m.contains k = decide (k ∈ M) := by
  rw [contains_eq_isSome, h.get?_eq, Bool.eq_iff_iff, decide_eq_true_iff,
    Finmap.lookup_isSome]

private theorem Kept.represents (h : Kept n m M) : m.Represents M := by
  have htidy : m.Tidy := h.tidy
  have hkeys : m.keys.toFinset = M.keys := by
    ext k
    rw [List.mem_toFinset, htidy.mem_keys, h.contains_eq, decide_eq_true_iff, Finmap.mem_keys]
  exact {
    get?_eq := h.get?_eq
    contains_eq := h.contains_eq
    size_eq := by rw [← hkeys, List.toFinset_card_of_nodup htidy.nodup_keys, length_keys]
    nodup := htidy.nodup_keys
    mem_toList := fun k v ↦ by rw [mem_toList, ← get?_eq_some htidy, h.get?_eq] }

/-- Without removals the entries stand in the order in which their keys were put first. -/
theorem keys_after (hn : n ≤ 2 ^ 31) {edits : List (Edit (Nat × α))}
    (h : Within Prod.fst n edits) (hkeep : ∀ k, .erase k ∉ edits) :
    (after n edits).keys = (recorded Prod.fst edits).eraseDups := by
  induction edits using List.reverseRecOn with
  | nil => rfl
  | append_singleton edits e ih =>
    have hrest := ih h.left fun k hk ↦ hkeep k (List.mem_append_left _ hk)
    rw [after_concat, recorded, List.foldl_append, ← recorded]
    cases e with
    | put entry =>
      obtain ⟨hcap, htidy, -, -⟩ := kept_after hn h.left
      have hlt : entry.1 < (after n edits).capacity := hcap.symm ▸ h.last
      change ((after n edits).insert entry.1 entry.2).keys
        = (recorded Prod.fst edits ++ [entry.1]).eraseDups
      rw [htidy.keys_insert hlt, List.eraseDups_append, hrest]
      by_cases hmem : entry.1 ∈ recorded Prod.fst edits
      · simp [hmem, List.removeAll]
      · simp [hmem, List.removeAll, List.eraseDups_cons]
    | erase k => exact absurd (List.mem_append_right _ (List.mem_singleton_self _)) (hkeep k)
    | clear => rfl

end IndexMap

/-! ## Sets

A set goes through a history exactly as the map from its elements to `()` does, down to the places
in both halves. What was proved of maps is read back for sets here: the elements, whether an
insertion was new, and the order in which they stand. -/

namespace IndexSet

variable {s t : IndexSet} {S T : Finset Nat} {n k : Nat}

/-- The set after a change. -/
def edit (s : IndexSet) : Edit Nat → IndexSet
  | .put k => s.insert k
  | .erase k => s.erase k
  | .clear => s.clear

/-- The set over the numbers below `n` after a history. -/
def after (n : Nat) (edits : List (Edit Nat)) : IndexSet := edits.foldl edit (.empty n)

theorem after_concat (n : Nat) (edits : List (Edit Nat)) (e : Edit Nat) :
    after n (edits ++ [e]) = (after n edits).edit e := by
  rw [after, List.foldl_append]
  rfl

/-- The set as a map to the one value `()`. -/
def asMap (s : IndexSet) : IndexMap Unit := ⟨s.dense.map fun k ↦ (k, ()), s.sparse⟩

/-- The history of that map. -/
def pairs (edits : List (Edit Nat)) : List (Edit (Nat × Unit)) :=
  edits.map (Edit.map fun k ↦ (k, ()))

theorem keys_asMap (s : IndexSet) : s.asMap.keys = s.toList := by
  rw [IndexMap.keys, IndexMap.toList, asMap, Array.toList_map, List.map_map]
  exact List.map_id _

theorem slot?_asMap (s : IndexSet) (k : Nat) :
    s.asMap.slot? k = if s.contains k then s.sparse[k]? else none := by
  rw [IndexMap.slot?, contains, asMap]
  cases s.sparse[k]? with
  | none => rfl
  | some i =>
    have hkey : (s.dense.map fun k ↦ (k, ()))[i]?.map Prod.fst = s.dense[i]? := by
      rw [Array.getElem?_map, Option.map_map]
      exact congrFun Option.map_id _
    simp only [hkey]

theorem contains_asMap (s : IndexSet) (k : Nat) : s.asMap.contains k = s.contains k := by
  rw [IndexMap.contains, slot?_asMap]
  cases hc : s.contains k with
  | false => rfl
  | true =>
    obtain ⟨i, hi, -⟩ := contains_iff.mp hc
    rw [hi]
    rfl

private theorem asMap_empty (n : Nat) : (empty n).asMap = .empty n :=
  congrArg (IndexMap.mk · _) Array.map_empty

private theorem asMap_clear (s : IndexSet) : s.clear.asMap = s.asMap.clear :=
  congrArg (IndexMap.mk · _) Array.map_empty

private theorem asMap_insert (s : IndexSet) (k : Nat) :
    (s.insert k).asMap = s.asMap.insert k () := by
  rw [IndexMap.insert, slot?_asMap]
  cases hc : s.contains k with
  | true =>
    obtain ⟨i, hi, hk⟩ := contains_iff.mp hc
    have hdense : (s.dense.map fun k ↦ (k, ())).setIfInBounds i (k, ())
        = s.dense.map fun k ↦ (k, ()) := by
      refine Array.ext_getElem? fun p ↦ ?_
      by_cases hp : p = i
      · have hlt : i < (s.dense.map fun k ↦ (k, ())).size := by
          rw [Array.size_map]
          exact (Array.getElem?_eq_some_iff.mp hk).1
        rw [hp, Array.getElem?_setIfInBounds_self_of_lt hlt, Array.getElem?_map, hk,
          Option.map_some]
      · rw [Array.getElem?_setIfInBounds_ne (Ne.symm hp)]
    rw [insert_of_contains hc, if_pos rfl, hi]
    exact congrArg (IndexMap.mk · s.sparse) hdense.symm
  | false =>
    by_cases hk : s.capacity ≤ k
    · have hsame : s.insert k = s := by
        rw [insert, hc, Bool.false_or, decide_eq_true hk, if_pos rfl]
      rw [hsame]
      exact (if_pos hk).symm
    · rw [insert_of_new hc (Nat.not_le.mp hk), asMap, Array.map_push, if_neg (by simp)]
      change _ = if s.capacity ≤ k then _ else _
      rw [if_neg hk, asMap, Array.size_map]

private theorem asMap_erase (s : IndexSet) (k : Nat) : (s.erase k).asMap = s.asMap.erase k := by
  rw [erase, IndexMap.erase, slot?_asMap]
  cases hc : s.contains k with
  | false => rfl
  | true =>
    obtain ⟨i, hi, -⟩ := contains_iff.mp hc
    have hback : s.asMap.dense.back? = s.dense.back?.map fun k ↦ (k, ()) := by
      rw [Array.back?, Array.back?, asMap, Array.getElem?_map, Array.size_map]
    rw [hback, hi, if_neg (by simp), if_pos rfl]
    cases s.dense.back? with
    | none => rfl
    | some last => simp only [asMap, Array.map_pop, Array.map_setIfInBounds, Option.map_some]

private theorem asMap_edit (s : IndexSet) (e : Edit Nat) :
    (s.edit e).asMap = s.asMap.edit (e.map fun k ↦ (k, ())) := by
  cases e with
  | put k => exact asMap_insert s k
  | erase k => exact asMap_erase s k
  | clear => exact asMap_clear s

theorem asMap_after (n : Nat) (edits : List (Edit Nat)) :
    (after n edits).asMap = IndexMap.after n (pairs edits) := by
  induction edits using List.reverseRecOn with
  | nil => exact asMap_empty n
  | append_singleton edits e ih =>
    have hpairs : pairs (edits ++ [e]) = pairs edits ++ [e.map fun k ↦ (k, ())] := List.map_append
    rw [after_concat, asMap_edit, ih, hpairs, IndexMap.after_concat]

private theorem mem_finset {edits : List (Edit Nat)} :
    k ∈ finset edits ↔ k ∈ finmap (pairs edits) := by
  induction edits using List.reverseRecOn with
  | nil => exact iff_of_false (Finset.notMem_empty k) Finmap.notMem_empty
  | append_singleton edits e ih =>
    rw [finset, pairs, finmap, List.foldl_append, List.map_append, List.foldl_append]
    cases e with
    | put j => exact Finset.mem_insert.trans ((or_congr_right ih).trans Finmap.mem_insert.symm)
    | erase j =>
      exact Finset.mem_erase.trans ((and_congr_right fun _ ↦ ih).trans Finmap.mem_erase.symm)
    | clear => exact iff_of_false (Finset.notMem_empty k) Finmap.notMem_empty

theorem within_pairs {edits : List (Edit Nat)} (h : Within id n edits) :
    Within Prod.fst n (pairs edits) := h.map fun _ ↦ rfl

private theorem recorded_pairs (edits : List (Edit Nat)) :
    recorded Prod.fst (pairs edits) = recorded id edits := by
  rw [recorded, recorded, pairs, List.foldl_map]
  congr 1
  funext keys e
  cases e <;> rfl

/-- A set with the elements of a finite set, each of them once. -/
structure Represents (s : IndexSet) (S : Finset Nat) : Prop where
  contains_eq : ∀ k, s.contains k = decide (k ∈ S)
  size_eq : s.size = S.card
  nodup : s.toList.Nodup
  mem_toList : ∀ k, k ∈ s.toList ↔ k ∈ S

theorem represents_after (hn : n ≤ 2 ^ 31) {edits : List (Edit Nat)} (h : Within id n edits) :
    (after n edits).Represents (finset edits) := by
  have hkept := IndexMap.kept_after hn (within_pairs h)
  rw [← asMap_after] at hkept
  have htidy : (after n edits).asMap.Tidy := hkept.tidy
  have hcontains : ∀ k, (after n edits).contains k = decide (k ∈ finset edits) := by
    intro k
    rw [← contains_asMap, hkept.contains_eq, Bool.eq_iff_iff, decide_eq_true_iff,
      decide_eq_true_iff, mem_finset]
  have hnodup : (after n edits).toList.Nodup := keys_asMap _ ▸ htidy.nodup_keys
  have hmem : ∀ k, k ∈ (after n edits).toList ↔ k ∈ finset edits := by
    intro k
    rw [← keys_asMap, htidy.mem_keys, contains_asMap, hcontains, decide_eq_true_iff]
  refine ⟨hcontains, ?_, hnodup, hmem⟩
  have hset : (after n edits).toList.toFinset = finset edits := by
    ext k
    rw [List.mem_toFinset, hmem]
  rw [← hset, List.toFinset_card_of_nodup hnodup, toList, Array.length_toList, size]

private theorem insert?_after (hn : n ≤ 2 ^ 31) {edits : List (Edit Nat)} (h : Within id n edits)
    (hk : k < n) :
    (after n edits).insert? k = some (decide (k ∉ finset edits), after n (edits ++ [.put k])) := by
  have hcap : (after n edits).capacity = n :=
    (congrArg IndexMap.capacity (asMap_after n edits)).trans
      (IndexMap.kept_after hn (within_pairs h)).capacity_eq
  rw [insert?, hcap, if_neg (Nat.not_le.mpr hk), (represents_after hn h).contains_eq, after_concat,
    ← decide_not]
  rfl

/-- Without removals the elements stand in the order in which they were put first. -/
private theorem toList_after (hn : n ≤ 2 ^ 31) {edits : List (Edit Nat)} (h : Within id n edits)
    (hkeep : ∀ k, .erase k ∉ edits) : (after n edits).toList = (recorded id edits).eraseDups := by
  rw [← keys_asMap, asMap_after, IndexMap.keys_after hn (within_pairs h)
    fun k hk ↦ hkeep k (erase_mem_map hk), recorded_pairs]

private theorem Represents.subset_eq (hs : s.Represents S) (ht : t.Represents T) :
    s.subset t = decide (S ⊆ T) := by
  rw [Bool.eq_iff_iff, decide_eq_true_iff, subset, Array.all_eq_true_iff_forall_mem]
  constructor
  · intro h k hk
    have hmem := h k (Array.mem_toList_iff.mp ((hs.mem_toList k).mpr hk))
    rwa [ht.contains_eq, decide_eq_true_iff] at hmem
  · intro h k hk
    rw [ht.contains_eq, decide_eq_true_iff]
    exact h ((hs.mem_toList k).mp (Array.mem_toList_iff.mpr hk))

end IndexSet

/-! ## Tables of words

The same operations once more, with places that are signed words and with reads that fail outside
the table. One definition serves sets and maps, as they differ only in how the key of an entry is
found. `Shows` ties such a table to a map: the dense halves correspond, and every word in the sparse
half is the one that stands for the number. As long as places stay below 2 ^ 31 no read fails, and
the two go on side by side. -/

/-- A table whose places are signed words of 32 bits. -/
structure Narrow (ε : Type) where
  dense : Array ε
  sparse : Array Int32

namespace Narrow

variable {ε : Type} (key : ε → Nat)

/-- The place of the entry for `k`. A negative place is not behind the dense half, and reading there
is a fault. -/
def find (t : Narrow ε) (k : Nat) : Except Breach (Option Nat) :=
  match t.sparse[k]? with
  | none => .ok none
  | some i =>
    if t.dense.size ≤ i.toInt then .ok none
    else if i.toInt < 0 then .error .fault
    else .ok (if t.dense[i.toInt.toNat]?.map key = some k then some i.toInt.toNat else none)

def point (t : Narrow ε) (k place : Nat) : Except Breach (Array Int32) :=
  if k < t.sparse.size then .ok (t.sparse.setIfInBounds k (.ofNat place)) else .error .fault

/-- Stores an entry, in the place of an older one with its key. -/
def put (t : Narrow ε) (e : ε) : Except Breach (Narrow ε) := do
  match ← t.find key (key e) with
  | some i => return { t with dense := t.dense.setIfInBounds i e }
  | none => return ⟨t.dense.push e, ← t.point (key e) t.dense.size⟩

/-- Removes the entry for `k`, filling its place with the last entry. -/
def erase (t : Narrow ε) (k : Nat) : Except Breach (Narrow ε) := do
  match ← t.find key k, t.dense.back? with
  | some i, some last =>
    return ⟨(t.dense.setIfInBounds i last).pop, ← t.point (key last) i⟩
  | _, _ => return t

/-- The table after a change. -/
def edit (t : Narrow ε) : Edit ε → Except Breach (Narrow ε)
  | .put e => t.put key e
  | .erase k => t.erase key k
  | .clear => .ok { t with dense := #[] }

/-- The table over the numbers below `n` after a history. -/
def after (n : Nat) (edits : List (Edit ε)) : Except Breach (Narrow ε) :=
  edits.foldlM (edit key) ⟨#[], Array.replicate n 0⟩

def get? (t : Narrow ε) (k : Nat) : Except Breach (Option ε) := do
  return (← t.find key k).bind (t.dense[·]?)

def contains (t : Narrow ε) (k : Nat) : Except Breach Bool := do
  return (← t.find key k).isSome

/-- The table of words shows a map of numbers: its entries stand for those of the map, and its words
for the places. -/
structure Shows {α : Type} (f : ε → Nat × α) (t : Narrow ε) (m : IndexMap α) : Prop where
  dense : m.dense = t.dense.map f
  sparse : t.sparse = m.sparse.map Int32.ofNat

variable {key} {α : Type} {f : ε → Nat × α} {t : Narrow ε} {m : IndexMap α}
  {M : Finmap fun _ : Nat ↦ α} {n : Nat}

/-- Where every place is below 2 ^ 31, a word stands for the place that it was made from. -/
theorem Shows.find_eq (h : t.Shows f m) (hkey : ∀ e, key e = (f e).1)
    (hplace : ∀ {k i : Nat}, m.sparse[k]? = some i → i < 2 ^ 31) (k : Nat) :
    t.find key k = .ok (m.slot? k) := by
  rw [find, h.sparse, Array.getElem?_map, IndexMap.slot?]
  cases hi : m.sparse[k]? with
  | none => rfl
  | some i =>
    have hkeys : m.dense[i]?.map Prod.fst = t.dense[i]?.map key := by
      rw [h.dense, Array.getElem?_map, Option.map_map, funext hkey]
      rfl
    have hword : (Int32.ofNat i).toInt = i := Int32.toInt_ofNat_of_lt (hplace hi)
    simp only [Option.map_some, hword, Int.toNat_natCast, Int.ofNat_le, hkeys, beq_iff_eq]
    split
    · rename_i hsize
      rw [Array.getElem?_eq_none hsize]
      rfl
    · rw [if_neg (by omega)]

theorem Shows.point_eq (h : t.Shows f m) {k : Nat} (hk : k < m.capacity) (place : Nat) :
    t.point k place = .ok ((m.sparse.setIfInBounds k place).map Int32.ofNat) := by
  have hlt : k < t.sparse.size := by rwa [h.sparse, Array.size_map]
  rw [point, if_pos hlt, h.sparse, Array.map_setIfInBounds]

private theorem Shows.put (h : t.Shows f m) (hkey : ∀ e, key e = (f e).1) (hm : m.Kept n M) {e : ε}
    (he : key e < n) : ∃ t', t.put key e = .ok t' ∧ t'.Shows f (m.insert (f e).1 (f e).2) := by
  have hlt : (f e).1 < m.capacity := hm.capacity_eq.symm ▸ hkey e ▸ he
  rw [Narrow.put, h.find_eq hkey hm.place_lt, hkey e, IndexMap.insert]
  cases m.slot? (f e).1 with
  | some i =>
    exact ⟨_, rfl, by rw [h.dense, Array.map_setIfInBounds], h.sparse⟩
  | none =>
    rw [if_neg (Nat.not_le.mpr hlt), h.point_eq hlt]
    refine ⟨_, rfl, by rw [h.dense, Array.map_push], ?_⟩
    rw [h.dense, Array.size_map]

private theorem Shows.erase (h : t.Shows f m) (hkey : ∀ e, key e = (f e).1) (hm : m.Kept n M)
    (k : Nat) : ∃ t', t.erase key k = .ok t' ∧ t'.Shows f (m.erase k) := by
  have hback : m.dense.back? = t.dense.back?.map f := by
    rw [Array.back?, Array.back?, h.dense, Array.getElem?_map, Array.size_map]
  rw [Narrow.erase, h.find_eq hkey hm.place_lt, IndexMap.erase, hback]
  cases m.slot? k with
  | none => exact ⟨t, rfl, h⟩
  | some i =>
    cases hlast : t.dense.back? with
    | none => exact ⟨t, rfl, h⟩
    | some last =>
      have hlt : (f last).1 < m.capacity := by
        rw [hlast, Array.back?] at hback
        exact (Array.getElem?_eq_some_iff.mp (hm.tidy hback)).1
      change ∃ t', (t.point (key last) i >>= fun sparse ↦
        pure (Narrow.mk (t.dense.setIfInBounds i last).pop sparse)) = Except.ok t' ∧ t'.Shows f _
      rw [hkey, h.point_eq hlt]
      exact ⟨_, rfl, by rw [h.dense, Option.map_some, Array.map_pop, Array.map_setIfInBounds], rfl⟩

private theorem exists_after (hkey : ∀ e, key e = (f e).1) (hn : n ≤ 2 ^ 31) {edits : List (Edit ε)}
    (h : Within key n edits) : ∃ t, after key n edits = .ok t ∧
      t.Shows f (IndexMap.after n (edits.map (Edit.map f))) := by
  induction edits using List.reverseRecOn with
  | nil =>
    refine ⟨_, rfl, Array.map_empty.symm, ?_⟩
    change _ = (Array.replicate n 0).map Int32.ofNat
    rw [Array.map_replicate]
    rfl
  | append_singleton edits e ih =>
    obtain ⟨t, ht, hshows⟩ := ih h.left
    have hkept := IndexMap.kept_after hn (h.left.map fun e ↦ (hkey e).symm)
    rw [after, List.foldlM_append, ← after, ht, List.map_append, List.map_singleton,
      IndexMap.after_concat]
    change ∃ t', (t.edit key e >>= pure) = _ ∧ _
    rw [bind_pure]
    cases e with
    | put e => exact hshows.put hkey hkept h.last
    | erase k => exact hshows.erase hkey hkept k
    | clear => exact ⟨_, rfl, Array.map_empty.symm, hshows.sparse⟩

end Narrow

/-! ## Histories -/

/-- After every history over a universe of at most 2 ^ 31 numbers a sparse set is the finite set
that the history makes, and a sparse map the finite map. Insertions say whether the key is new, and
the comparison of two sets is inclusion. Without removals the elements stand in the order in which
they were put first. Tables whose places are words of 32 bits go through the same history without a
fault, hold the same in the same order and give the same answers. -/
theorem represents_histories {α : Type} {n : Nat} (hn : n ≤ 2 ^ 31) :
    (∀ edits : List (Edit Nat), Within id n edits →
      (IndexSet.after n edits).Represents (finset edits) ∧
      (∀ k < n, (IndexSet.after n edits).insert? k
        = some (decide (k ∉ finset edits), IndexSet.after n (edits ++ [.put k]))) ∧
      ((∀ k, .erase k ∉ edits) →
        (IndexSet.after n edits).toList = (recorded id edits).eraseDups) ∧
      (∀ n' ≤ 2 ^ 31, ∀ edits', Within id n' edits' →
        (IndexSet.after n edits).subset (IndexSet.after n' edits')
          = decide (finset edits ⊆ finset edits')) ∧
      ∃ t, Narrow.after id n edits = .ok t ∧ t.dense = (IndexSet.after n edits).dense ∧
        ∀ k, t.contains id k = .ok (decide (k ∈ finset edits))) ∧
    ∀ edits : List (Edit (Nat × α)), Within Prod.fst n edits →
      (IndexMap.after n edits).Represents (finmap edits) ∧
      ((∀ k, .erase k ∉ edits) →
        (IndexMap.after n edits).keys = (recorded Prod.fst edits).eraseDups) ∧
      ∃ t, Narrow.after Prod.fst n edits = .ok t ∧ t.dense = (IndexMap.after n edits).dense ∧
        ∀ k, t.get? Prod.fst k = .ok (((finmap edits).lookup k).map fun v ↦ (k, v)) := by
  refine ⟨fun edits h ↦ ?_, fun edits h ↦ ?_⟩
  · have hset := IndexSet.represents_after hn h
    refine ⟨hset, fun k ↦ IndexSet.insert?_after hn h, IndexSet.toList_after hn h,
      fun n' hn' edits' h' ↦ hset.subset_eq (IndexSet.represents_after hn' h'), ?_⟩
    have hkey : ∀ k : Nat, id k = (k, ()).1 := fun _ ↦ rfl
    obtain ⟨t, ht, hshows⟩ := Narrow.exists_after hkey hn h
    have hmap : IndexMap.after n (edits.map (Edit.map fun k ↦ (k, ())))
        = (IndexSet.after n edits).asMap := (IndexSet.asMap_after n edits).symm
    rw [hmap] at hshows
    have hkept := IndexMap.kept_after hn (IndexSet.within_pairs h)
    rw [← IndexSet.asMap_after] at hkept
    refine ⟨t, ht, ?_, fun k ↦ ?_⟩
    · have hkeys := congrArg (Array.map Prod.fst) hshows.dense
      simpa [IndexSet.asMap, Function.comp_def] using hkeys.symm
    · rw [Narrow.contains, hshows.find_eq hkey hkept.place_lt, ← hset.contains_eq,
        ← IndexSet.contains_asMap]
      rfl
  · have hkept := IndexMap.kept_after hn h
    have hkey : ∀ e : Nat × α, e.1 = (id e).1 := fun _ ↦ rfl
    obtain ⟨t, ht, hshows⟩ := Narrow.exists_after hkey hn h
    rw [Edit.map_id] at hshows
    have hdense : t.dense = (IndexMap.after n edits).dense := by rw [hshows.dense, Array.map_id]
    refine ⟨hkept.represents, IndexMap.keys_after hn h, t, ht, hdense, fun k ↦ ?_⟩
    rw [Narrow.get?, hshows.find_eq hkey hkept.place_lt, ← hkept.get?_eq, hdense,
      ← IndexMap.entry_eq]
    rfl

/-- What stood in a place before it was cleared or filled again neither hides an element nor brings
one back. -/
theorem represents_histories_stale :
    let edits : List (Edit Nat) := [.put 2, .clear, .put 1, .put 3, .erase 3, .put 0, .erase 1]
    4 ≤ 2 ^ 31 ∧ Within id 4 edits ∧ finset edits = {0} ∧
      (IndexSet.after 4 edits).Represents (finset edits) := by
  have hwithin : Within id 4
      [.put 2, .clear, .put 1, .put 3, .erase 3, .put 0, .erase 1] := by
    intro e he
    simp only [List.mem_cons, reduceCtorEq, put.injEq, List.not_mem_nil, or_false, false_or] at he
    rcases he with rfl | rfl | rfl | rfl <;> decide
  exact ⟨by decide, hwithin, by decide,
    ((@represents_histories Unit 4 (by decide)).1 _ hwithin).1⟩

end Flowgraph
