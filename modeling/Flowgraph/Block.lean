import Flowgraph.Index

/-!
# Blocks

A block is a contiguous range of operations that ends in a terminator. It has no range until it
receives its first operation.

## Ranges

A block has either no range or one that holds at least the operation it began with. An empty range
at position zero stands in for a missing one wherever only the operations of the block matter.
-/

namespace Flowgraph

/-- How control enters a block. -/
inductive BlockKind where
  /-- The function entry; it has no predecessors. -/
  | entry
  /-- Exactly one predecessor. -/
  | plain
  /-- Joins several forward predecessors. -/
  | merge
  /-- A loop header: forward predecessors and backedges. -/
  | loop
  /-- A code without a meaning. -/
  | reserved (code : { c : UInt8 // 3 < c })
deriving DecidableEq

namespace BlockKind

def ofCode (c : UInt8) : BlockKind :=
  if h : 3 < c then .reserved ⟨c, h⟩
  else if c = 0 then .entry
  else if c = 1 then .plain
  else if c = 2 then .merge else .loop

def code : BlockKind → UInt8
  | .entry => 0
  | .plain => 1
  | .merge => 2
  | .loop => 3
  | .reserved c => c.val

def text : BlockKind → String
  | .entry => "entry"
  | .plain => "plain"
  | .merge => "merge"
  | .loop => "loop"
  | .reserved _ => "unknown"

end BlockKind

/-- A half-open range of operations. -/
structure Span where
  first : OpIndex
  stop : OpIndex
deriving DecidableEq

namespace Span

/-- The range of no operations. -/
def empty : Span := ⟨0, 0⟩

/-- The number of operations in the range. -/
def length (s : Span) : Nat := s.stop - s.first

/-- The operations of the range, front to back. -/
def toList (s : Span) : List OpIndex := List.range' s.first s.length

/-- The last operation of the range. -/
def last? (s : Span) : Option OpIndex :=
  if s.length = 0 then none else some (s.stop - 1)

end Span

/-- A basic block. -/
structure Block where
  kind : BlockKind
  deferred : Bool
  /-- The operations of the block, once it has some. -/
  span? : Option Span
deriving DecidableEq

namespace Block

def span (b : Block) : Span := b.span?.getD .empty

/-- The block with its range extended by the operation with handle `i`. -/
def extend (b : Block) (i : OpIndex) : Block :=
  { b with span? := some ⟨(b.span?.map Span.first).getD i, i + 1⟩ }

def isLoop (b : Block) : Bool := b.kind = .loop

/-- Is the block a forward merge point? -/
def isMerge (b : Block) : Bool := b.kind = .merge

end Block

end Flowgraph
