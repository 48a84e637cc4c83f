import Flowgraph.MessagePack.Value

/-!
# Lists of records that are read more than once

A map can name the same field twice, and then the second value is read on top of the first. A list
of records that gets shorter in this way keeps the records behind its end out of sight; they come
back, with the fields that the new values do not name, when the list gets longer again. Only
nothing in place of a list lets go of them.
-/

namespace Flowgraph.MessagePack

/-- A list with the records behind its end. -/
structure Slots (α : Type) where
  items : List α
  /-- What was read at the places after the last item. -/
  hidden : List α
deriving DecidableEq

namespace Slots

variable {α : Type}

/-- A list with nothing behind its end. -/
def ofList (items : List α) : Slots α := ⟨items, []⟩

/-- The empty list with nothing behind its end. -/
def empty : Slots α := ofList []

/-- Reads values one by one on top of earlier records, and on top of `zero` where there are none;
the records that no value is left for come second. -/
def readOnto (zero : α) (read : Value → α → Option α) :
    List Value → List α → Option (List α × List α)
  | [], old => some ([], old)
  | v :: vs, old => do
    let a ← read v (old.headD zero)
    let (as, rest) ← readOnto zero read vs old.tail
    return (a :: as, rest)

/-- Reads a list of records on top of an earlier one; `none` inside stands for nothing. -/
def ofValue? (zero : α) (read : Value → α → Option α) (v : Value) (old : Slots α) :
    Option (Option (Slots α)) := do
  match ← v.toList? with
  | none => return none
  | some values =>
    let (items, hidden) ← readOnto zero read values (old.items ++ old.hidden)
    return some ⟨items, hidden⟩

end Slots

end Flowgraph.MessagePack
