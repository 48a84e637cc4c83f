/-!
# Edit distance

The least number of insertions, removals and replacements of single items that turn one list into
another, computed row by row.
-/

namespace Flowgraph.Text

/-- The rest of the row after `left` for an item `c` of the second list, from the row before. -/
def distanceRow {α : Type} [DecidableEq α] (c : α) : Nat → List α → List Nat → List Nat
  | left, x :: xs, diagonal :: up :: row =>
    let d := if x = c then diagonal else min left (min up diagonal) + 1
    d :: distanceRow c d xs (up :: row)
  | _, _, _ => []

/-- The distances of the beginnings of the first list from the whole second one. -/
def distances {α : Type} [DecidableEq α] (s t : List α) : List Nat :=
  t.foldl
    (fun row c ↦
      let first := row.headD 0 + 1
      first :: distanceRow c first s row)
    (List.range (s.length + 1))

/-- The edit distance of two lists. -/
def editDistance {α : Type} [DecidableEq α] (s t : List α) : Nat := (distances s t).getLastD 0

end Flowgraph.Text
