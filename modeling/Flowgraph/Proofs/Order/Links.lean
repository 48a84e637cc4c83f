import Flowgraph.Breach
import Mathlib.Data.List.Nodup
import Mathlib.Data.List.Perm.Subperm
import Mathlib.Logic.Relation

/-!
# Lists in a table of links

An order of blocks that grows at the front can be kept in a table that holds for each block the one
that follows it. `Links next head l` says that the list from `head` on is `l`. A list that is set
aside stays in the table as long as the links of its blocks are left alone, and it can be put in
front of another list by changing the link of its last block. That block is found by following the
links up to the one that leads to where the list was set aside from.

Computations on such a table can go wrong in three ways. They can look up a link outside the table,
go around in a circle, or never end. `Attempt` keeps these apart: an attempt that breaks off gives a
`Halt`, and one for which a bound on its steps was too small gives nothing.
-/

namespace Flowgraph

/-! ## Attempts

An attempt has an outcome, or broke off, or did not come to an end within its bound. A bound that
was too small is not an outcome. -/

/-- Why a computation of an order breaks off. -/
inductive Halt where
  | breach (b : Breach)
  /-- The links go around in a circle. -/
  | cycle
deriving DecidableEq

/-- A computation with a bound on its steps. It may break off, and it gives nothing if the bound is
too small. -/
abbrev Attempt := ExceptT Halt Option

namespace Attempt

/-- The bound was too small. -/
def unfinished {α : Type} : Attempt α := ExceptT.mk none

/-- Looks up an entry of a table. -/
def read {α : Type} (table : Array α) (i : Nat) : Attempt α :=
  match table[i]? with
  | some a => pure a
  | none => throw (.breach .fault)

/-- Overwrites an entry of a table. -/
def write {α : Type} (table : Array α) (i : Nat) (a : α) : Attempt (Array α) :=
  if i < table.size then pure (table.setIfInBounds i a) else throw (.breach .fault)

theorem read_of_some {α : Type} {table : Array α} {i : Nat} {a : α} (h : table[i]? = some a) :
    read table i = pure a := by rw [read, h]

theorem write_of_lt {α : Type} {table : Array α} {i : Nat} (h : i < table.size) (a : α) :
    write table i a = pure (table.setIfInBounds i a) := if_pos h

end Attempt

theorem getElem?_setIfInBounds_of_lt {α : Type} {table : Array α} {i : Nat} (h : i < table.size)
    (a : α) (j : Nat) : (table.setIfInBounds i a)[j]? = if j = i then some a else table[j]? := by
  by_cases hj : j = i
  · subst hj
    rw [if_pos rfl, Array.getElem?_setIfInBounds_self_of_lt h]
  · rw [if_neg hj, Array.getElem?_setIfInBounds_ne (Ne.symm hj)]

/-! ## Lists of links

Pushing a block, dropping a front part and putting a list in front of another one, in terms of the
lists that the links hold. -/

/-- For each block the one that follows it; the last block of a list has none. -/
abbrev NextTable := Array (Option BlockIndex)

/-- The links from `head` on go through the blocks of the list and then end. -/
inductive Links (next : NextTable) : Option BlockIndex → List BlockIndex → Prop
  | nil : Links next none []
  | cons {b : BlockIndex} {head : Option BlockIndex} {l : List BlockIndex} :
    next[b]? = some head → Links next head l → Links next (some b) (b :: l)

namespace Links

variable {next next' : NextTable} {head head' : Option BlockIndex} {l r : List BlockIndex}
  {b : BlockIndex}

theorem head_eq (h : Links next head l) : head = l.head? := by
  cases h <;> rfl

theorem lt_size (h : Links next head l) (hb : b ∈ l) : b < next.size := by
  induction h with
  | nil => cases hb
  | cons hnext _ ih =>
    rcases List.mem_cons.mp hb with rfl | hb
    · exact (Array.getElem?_eq_some_iff.mp hnext).1
    · exact ih hb

/-- The table has room for the list. -/
theorem length_le (h : Links next head l) (hnd : l.Nodup) : l.length ≤ next.size := by
  have hsub : l ⊆ List.range next.size := fun b hb ↦ List.mem_range.mpr (h.lt_size hb)
  have hle := (hnd.subperm hsub).length_le
  rwa [List.length_range] at hle

/-- Only the links of its blocks matter to a list. -/
theorem congr (h : Links next head l) (heq : ∀ b ∈ l, next'[b]? = next[b]?) :
    Links next' head l := by
  induction h with
  | nil => exact .nil
  | cons hnext _ ih =>
    rw [List.forall_mem_cons] at heq
    exact .cons (heq.1.trans hnext) (ih heq.2)

/-- Putting a block in front. -/
theorem push (h : Links next head l) (hb : b < next.size) (hnew : b ∉ l) :
    Links (next.setIfInBounds b head) (some b) (b :: l) :=
  .cons (Array.getElem?_setIfInBounds_self_of_lt hb)
    (h.congr fun _ hc ↦ Array.getElem?_setIfInBounds_ne (ne_of_mem_of_not_mem hc hnew).symm)

theorem drop (h : Links next head (l ++ r)) : Links next r.head? r := by
  induction l generalizing head with
  | nil => exact h.head_eq ▸ h
  | cons b l ih =>
    cases h with
    | cons _ h => exact ih h

/-- Changing the link of its last block puts a list in front of another one. -/
theorem splice {r' : List BlockIndex} (h : Links next head (l ++ b :: r)) (hr : Links next head' r')
    (hb : b ∉ l) (hnew : b ∉ r') :
    Links (next.setIfInBounds b head') head (l ++ b :: r') := by
  induction l generalizing head with
  | nil =>
    cases h with
    | cons hnext _ => exact hr.push (Array.getElem?_eq_some_iff.mp hnext).1 hnew
  | cons c l ih =>
    rw [List.mem_cons, not_or] at hb
    cases h with
    | cons hnext h =>
      exact .cons ((Array.getElem?_setIfInBounds_ne hb.1).trans hnext) (ih h hb.2)

end Links

/-! ## Following links

Both walks along the links come to their end within the number of blocks, as the list has no
repetitions. -/

/-- Follows the links up to the block whose link leads to `stop`. -/
def seek (next : NextTable) (stop : Option BlockIndex) : (fuel : Nat) → Option BlockIndex →
    Attempt BlockIndex
  | _, none => throw (.breach .fault)
  | 0, some _ => .unfinished
  | fuel + 1, some b => do
    let c ← Attempt.read next b
    if c = stop then return b else seek next stop fuel c

/-- Follows the links to the end; more blocks than there are would be a circle. -/
def walk (next : NextTable) : (room : Nat) → Option BlockIndex → Attempt (List BlockIndex)
  | _, none => return []
  | 0, some _ => throw .cycle
  | room + 1, some b => do
    let c ← Attempt.read next b
    return b :: (← walk next room c)

/-- The last block in front of `r` is found, since no link in between leads to `r`. -/
theorem seek_eq {next : NextTable} {b : BlockIndex} {r : List BlockIndex} : ∀ {l : List BlockIndex}
    {head : Option BlockIndex} {fuel : Nat}, Links next head (l ++ b :: r) →
      (l ++ b :: r).Nodup → l.length < fuel → seek next r.head? fuel head = pure b
  | [], _, fuel + 1, .cons hnext h, _, _ => by
    rw [seek, Attempt.read_of_some hnext, pure_bind, if_pos h.head_eq]
  | c :: l, _, fuel + 1, .cons hnext h, hnd, hfuel => by
    rw [List.cons_append, List.nodup_cons] at hnd
    have hne : (l ++ b :: r).head? ≠ r.head? := fun heq ↦ by
      cases hr : r.head? with
      | none =>
        rw [hr] at heq
        simp at heq
      | some d =>
        have hd : d ∈ r := List.mem_of_head? hr
        have hdisj := List.disjoint_of_nodup_append (List.append_cons l b r ▸ hnd.2)
        refine hdisj (List.mem_of_head? (?_ : (l ++ [b]).head? = some d)) hd
        rw [hr] at heq
        rw [← heq]
        cases l <;> rfl
    rw [seek, Attempt.read_of_some hnext, pure_bind, if_neg (h.head_eq ▸ hne)]
    exact seek_eq h hnd.2 (Nat.lt_of_succ_lt_succ hfuel)

/-- A list that is not too long is read as it is. -/
theorem walk_eq {next : NextTable} : ∀ {l : List BlockIndex} {head : Option BlockIndex}
    {room : Nat}, Links next head l → l.length ≤ room → walk next room head = pure l
  | [], _, room, .nil, _ => by cases room <;> rfl
  | b :: l, _, room + 1, .cons hnext h, hroom => by
    rw [walk, Attempt.read_of_some hnext, pure_bind, walk_eq h (Nat.le_of_succ_le_succ hroom),
      pure_bind]

end Flowgraph
