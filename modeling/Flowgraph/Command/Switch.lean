import Flowgraph.Text.Case

/-!
# Switches

A switch is on, off, or left to the program.
-/

namespace Flowgraph.Command

/-- The position of a switch. -/
inductive Switch where
  | auto
  | on
  | off
deriving DecidableEq

namespace Switch

/-- The name of a position. -/
def text : Switch → String
  | .auto => "auto"
  | .on => "on"
  | .off => "off"

/-- The names of all positions. -/
def choices : String := "auto|on|off"

/-- What is said about any other name. -/
def expected : String := "expected auto, on or off"

/-- The position with a given name, in any case and with blanks around it; no name leaves the switch
to the program. -/
def parse? (s : String) : Option Switch :=
  match Text.lower (Text.trim s) with
  | "" | "auto" => some .auto
  | "on" => some .on
  | "off" => some .off
  | _ => none

/-- Is the switch on, given what the program would choose? -/
def resolve (s : Switch) (choice : Bool) : Bool :=
  match s with
  | .auto => choice
  | .on => true
  | .off => false

end Switch

end Flowgraph.Command
