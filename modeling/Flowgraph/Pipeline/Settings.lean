/-!
# Pipeline settings

Which stages are applied to a graph.
-/

namespace Flowgraph.Pipeline

/-- Which stages run. -/
structure Settings where
  specialRpo : Bool
  propagateDeferred : Bool
  eliminateDeadCode : Bool
  forwardPhis : Bool
  verify : Bool
deriving DecidableEq

namespace Settings

/-- Everything but the forwarding of phis. -/
def default : Settings := ⟨true, true, true, false, true⟩

/-- A switch among the settings. -/
structure Flag where
  name : String
  get : Settings → Bool
  set : Settings → Bool → Settings

/-- The switches by name. -/
def flags : List Flag :=
  [⟨"special_rpo", specialRpo, fun s b ↦ { s with specialRpo := b }⟩,
   ⟨"propagate_deferred", propagateDeferred, fun s b ↦ { s with propagateDeferred := b }⟩,
   ⟨"eliminate_dead_code", eliminateDeadCode, fun s b ↦ { s with eliminateDeadCode := b }⟩,
   ⟨"forward_phis", forwardPhis, fun s b ↦ { s with forwardPhis := b }⟩,
   ⟨"verify", verify, fun s b ↦ { s with verify := b }⟩]

end Settings

end Flowgraph.Pipeline
