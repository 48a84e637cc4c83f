/-!
# Sets of small numbers

A set of numbers below a fixed universe. The elements stand in a dense array in the order in which
they came; a sparse array says for each number where to look for it. The sparse array is never
cleaned: an entry counts only if the dense array confirms it. Membership, insertion and removal
take constant time, and removal fills the gap with the last element.

The places are natural numbers here. A universe of up to 2 ^ 31 numbers has places that fit into
signed words of 32 bits, and a table with such places then goes through the same states; the module
on histories proves this. Whatever uses these sets for a table of words does so under this bound.
-/

namespace Flowgraph

/-- A set of numbers below the length of `sparse`. -/
structure IndexSet where
  dense : Array Nat
  sparse : Array Nat
deriving DecidableEq

namespace IndexSet

/-- The empty set over the numbers below `capacity`. -/
def empty (capacity : Nat) : IndexSet := ⟨#[], Array.replicate capacity 0⟩

def capacity (s : IndexSet) : Nat := s.sparse.size

def size (s : IndexSet) : Nat := s.dense.size

/-- The elements, in order of insertion as long as nothing was removed. -/
def toList (s : IndexSet) : List Nat := s.dense.toList

/-- Is `k` an element? A number outside the universe is not. -/
def contains (s : IndexSet) (k : Nat) : Bool :=
  match s.sparse[k]? with
  | some i => s.dense[i]? == some k
  | none => false

/-- Adds `k`; a number outside the universe is left out. -/
def insert (s : IndexSet) (k : Nat) : IndexSet :=
  if s.contains k || s.capacity ≤ k then s
  else ⟨s.dense.push k, s.sparse.setIfInBounds k s.dense.size⟩

/-- Adds `k` and says whether it is new; there is no answer outside the universe. -/
def insert? (s : IndexSet) (k : Nat) : Option (Bool × IndexSet) :=
  if s.capacity ≤ k then none else some (!s.contains k, s.insert k)

/-- Removes `k`, filling its place with the last element. -/
def erase (s : IndexSet) (k : Nat) : IndexSet :=
  if !s.contains k then s
  else
    match s.sparse[k]?, s.dense.back? with
    | some i, some last =>
      ⟨(s.dense.setIfInBounds i last).pop, s.sparse.setIfInBounds last i⟩
    | _, _ => s

/-- Removes all elements. -/
def clear (s : IndexSet) : IndexSet := { s with dense := #[] }

/-- Is every element of `s` an element of `t`? -/
def subset (s t : IndexSet) : Bool := s.dense.all t.contains

end IndexSet

end Flowgraph
