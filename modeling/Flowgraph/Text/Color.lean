/-!
# Colours of the terminal

Marked texts are put between two escape sequences, the second of which takes the mark back.
-/

namespace Flowgraph.Text

/-- A bold text in a colour of the terminal. -/
def bold (color : Nat) (s : String) : String := s!"\x1b[{color};1m{s}\x1b[0;22m"

def faint (s : String) : String := s!"\x1b[2m{s}\x1b[22m"

end Flowgraph.Text
