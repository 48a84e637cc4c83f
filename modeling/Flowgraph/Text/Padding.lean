/-!
# Columns

Texts in a column are padded with spaces, counted in characters.
-/

namespace Flowgraph.Text

/-- Enough spaces to bring a text to a width. -/
def fill (width : Nat) (s : String) : String :=
  String.ofList (List.replicate (width - s.length) ' ')

/-- The text at the left of a column. -/
def padRight (width : Nat) (s : String) : String := s ++ fill width s

/-- The text at the right of a column. -/
def padLeft (width : Nat) (s : String) : String := fill width s ++ s

end Flowgraph.Text
