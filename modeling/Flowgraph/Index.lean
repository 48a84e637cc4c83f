/-!
# Handles

Operations and blocks are addressed by their position in the graph that owns them. Positions are
32-bit numbers; the largest one is reserved as the handle that names nothing, so a graph never
holds that many operations or blocks.

## Bounds

A handle is a natural number here, so that positions need no conversion. The bound is kept by the
two functions that hand out handles, `Graph.addBlock` and `Graph.addOperation`: each of them stops
before it reaches the reserved one. A text that shows the reserved handle shows a question mark in
place of the number.
-/

namespace Flowgraph

/-- The position of an operation inside one graph. -/
abbrev OpIndex := Nat

/-- The position of a block inside one graph. -/
abbrev BlockIndex := Nat

/-- The handle that names nothing: the largest 32-bit number. -/
def noHandle : Nat := 4294967295

/-- An operation handle as listings show it. -/
def OpIndex.text (i : OpIndex) : String :=
  if i = noHandle then "v?" else s!"v{i}"

/-- A block handle as listings show it. -/
def BlockIndex.text (b : BlockIndex) : String :=
  if b = noHandle then "b?" else s!"b{b}"

/-- A block that may be absent; an absent one shows as the handle that names nothing. -/
def BlockIndex.optionText (b : Option BlockIndex) : String :=
  BlockIndex.text (b.getD noHandle)

/-- An operation that may be absent; an absent one shows as the handle that names nothing. -/
def OpIndex.optionText (i : Option OpIndex) : String :=
  OpIndex.text (i.getD noHandle)

end Flowgraph
