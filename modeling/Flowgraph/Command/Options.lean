import Flowgraph.Command.Value

/-!
# Options

What the flags of a command line say. An option that overrides the configuration is there only if
its flag was given.
-/

namespace Flowgraph.Command

/-- How a run is traced. -/
structure TraceOptions where
  /-- The name of the output; empty or a dash for the standard one. -/
  path : String := ""
  level : String := "off"
  mode : String := "stream"
  format : String := "auto"
  ringSize : Int := 4096
  /-- The time between heartbeats in nanoseconds; there are none if it is not positive. -/
  heartbeat : Int := 0

/-- The files that profiles are written to; empty for none. -/
structure ProfileOptions where
  cpu : String := ""
  heap : String := ""
  execution : String := ""

/-- What overrides the configuration. -/
structure Overrides where
  jobs? : Option Int := none
  emit? : Option (List String) := none
  directory? : Option String := none
  format? : Option String := none
  noCache? : Option Bool := none
  forwardPhis? : Option Bool := none
  noElimination? : Option Bool := none

/-- All options. -/
structure Options where
  help : Bool := false
  version : Bool := false
  color : Switch := .auto
  quiet : Bool := false
  timings : Bool := false
  /-- The path of the configuration file; empty to look for it. -/
  config : String := ""
  trace : TraceOptions := {}
  profile : ProfileOptions := {}
  overrides : Overrides := {}
  progress : Switch := .auto
  force : Bool := false
  versionFormat : String := "pretty"
  full : Bool := false

/-- The list of an option that was given. A list of one empty text is empty, and line ends in texts
are plain. -/
def settledList : List String → List String
  | [""] => []
  | l => l.map fun s ↦ s.replace "\r\n" "\n"

end Flowgraph.Command
