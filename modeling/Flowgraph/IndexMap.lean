/-!
# Maps from small numbers

A map whose keys are numbers below a fixed universe, with the same pair of a dense and a sparse
array as the sets of small numbers: the dense array holds the entries, the sparse one says where
to look for a key, and an entry counts only if the dense array confirms it.

As for the sets, a map over a universe of up to 2 ^ 31 numbers stands for a table whose places are
signed words of 32 bits.
-/

namespace Flowgraph

/-- A map from numbers below the length of `sparse`. -/
structure IndexMap (α : Type) where
  dense : Array (Nat × α)
  sparse : Array Nat

namespace IndexMap

variable {α : Type}

/-- The empty map over the numbers below `capacity`. -/
def empty (capacity : Nat) : IndexMap α := ⟨#[], Array.replicate capacity 0⟩

def capacity (m : IndexMap α) : Nat := m.sparse.size

def size (m : IndexMap α) : Nat := m.dense.size

/-- The entries, in order of insertion as long as nothing was removed. -/
def toList (m : IndexMap α) : List (Nat × α) := m.dense.toList

/-- The place of the entry for `k`. -/
def slot? (m : IndexMap α) (k : Nat) : Option Nat :=
  match m.sparse[k]? with
  | some i => if m.dense[i]?.map Prod.fst == some k then some i else none
  | none => none

def get? (m : IndexMap α) (k : Nat) : Option α :=
  ((m.slot? k).bind (m.dense[·]?)).map Prod.snd

def contains (m : IndexMap α) (k : Nat) : Bool := (m.slot? k).isSome

/-- Stores `v` for `k`, in place of an older value; a key outside the universe is left out. -/
def insert (m : IndexMap α) (k : Nat) (v : α) : IndexMap α :=
  match m.slot? k with
  | some i => { m with dense := m.dense.setIfInBounds i (k, v) }
  | none =>
    if m.capacity ≤ k then m
    else ⟨m.dense.push (k, v), m.sparse.setIfInBounds k m.dense.size⟩

/-- Stores `v` for `k`; there is no answer outside the universe. -/
def insert? (m : IndexMap α) (k : Nat) (v : α) : Option (IndexMap α) :=
  if m.capacity ≤ k then none else some (m.insert k v)

/-- Removes the entry for `k`, filling its place with the last entry. -/
def erase (m : IndexMap α) (k : Nat) : IndexMap α :=
  match m.slot? k, m.dense.back? with
  | some i, some last =>
    ⟨(m.dense.setIfInBounds i last).pop, m.sparse.setIfInBounds last.1 i⟩
  | _, _ => m

/-- Removes all entries. -/
def clear (m : IndexMap α) : IndexMap α := { m with dense := #[] }

end IndexMap

end Flowgraph
