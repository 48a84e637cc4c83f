import Flowgraph.Index

/-!
# Broken preconditions

Building, ordering, analysing and rebuilding a graph each have preconditions. A call that breaks
one stops with a `Breach`, which names the rule and the offending handles. An index that falls
outside a table has no wording of its own: it is the breach `fault`.
-/

namespace Flowgraph

/-- The preconditions that can be broken, with what broke them. -/
inductive Breach where
  /-- A table was read outside its bounds. -/
  | fault
  /-- The graph already holds as many operations as there are handles. -/
  | tooManyOps (count : Nat)
  /-- The graph already holds as many blocks as there are handles. -/
  | tooManyBlocks (count : Nat)
  /-- A block was bound while another one still awaits its terminator. -/
  | bindWhileOpen (block : BlockIndex) (bound : BlockIndex)
  /-- A block that has operations was bound again. -/
  | alreadyBound (block : BlockIndex)
  /-- An operation was added while no block is bound. -/
  | addOutsideBlock (opcode : String)
  /-- An operation handle is not below the number of operations. -/
  | opOutOfRange (op : OpIndex) (count : Nat)
  /-- A block handle is not below the number of blocks. -/
  | blockOutOfRange (block : BlockIndex) (count : Nat)
  /-- Blocks were renumbered while one of them was being filled. -/
  | reorderWhileBound
  /-- A renumbering has the wrong number of entries. -/
  | permutationSize (entries blocks : Nat)
  /-- A renumbering names a missing block, or one that it named before. -/
  | notBijective (position : Nat) (block : BlockIndex)
  /-- A loop header was closed that is not the innermost open loop. -/
  | loopStackCorrupted (header : BlockIndex)
  /-- The order does not reach every block. -/
  | orderCovers (reached blocks : Nat)
  /-- An operation that was removed before is still used. -/
  | removedStillUsed (op : OpIndex) (block : BlockIndex)
  /-- A terminator was found dead and nothing tells where control goes instead. -/
  | deadTerminator (op : OpIndex) (block : BlockIndex)
  /-- A copied operation uses a value that has not been copied. -/
  | inputNotEmitted (op : OpIndex)
  /-- A copied block did not receive a terminator. -/
  | copiedOpen (block : BlockIndex)
  /-- A copied phi has no input for a predecessor of its copied block. -/
  | phiWithoutInput (op : OpIndex) (block source : BlockIndex)
  /-- A loop phi takes a value around the loop that was never copied. -/
  | loopPhiNotEmitted (op : OpIndex)
  /-- A block of a graph sketch lists more than two successors. -/
  | tooManySuccessors (block count : Nat)
deriving DecidableEq

/-- The wording of a breach; `fault` has none. -/
def Breach.message? : Breach → Option String
  | .fault => none
  | .tooManyOps n => some s!"operation index overflow: {n}"
  | .tooManyBlocks n => some s!"block index overflow: {n}"
  | .bindWhileOpen b o => some s!"ir: binding {b.text} while {o.text} is not terminated"
  | .alreadyBound b => some s!"ir: block {b.text} is already bound"
  | .addOutsideBlock k => some s!"ir: adding {k} outside of a block"
  | .opOutOfRange i n => some s!"ir: operation {i.text} out of range [0,{n})"
  | .blockOutOfRange b n => some s!"ir: block {b.text} out of range [0,{n})"
  | .reorderWhileBound => some "ir: reordering blocks while a block is bound"
  | .permutationSize m n => some s!"ir: permutation has {m} entries for {n} blocks"
  | .notBijective p b => some s!"ir: permutation is not a bijection at position {p} ({b.text})"
  | .loopStackCorrupted h => some s!"rpo: loop stack corrupted at header {h.text}"
  | .orderCovers m n => some s!"rpo: order covers {m} of {n} blocks; graph has unreachable blocks"
  | .removedStillUsed i b => some s!"dce: removed operation {i.text} in {b.text} is still used"
  | .deadTerminator i b => some s!"dce: dead terminator {i.text} in {b.text} has no rewrite target"
  | .inputNotEmitted i => some s!"copier: input {i.text} was not emitted"
  | .copiedOpen b => some s!"copier: {b.text} was copied without a terminator"
  | .phiWithoutInput i b s =>
    some s!"copier: phi {i.text} in {b.text} has no input for predecessor {s.text}"
  | .loopPhiNotEmitted i =>
    some s!"copier: loop phi {i.text} has an input that was never emitted"
  | .tooManySuccessors b n => some s!"testkit: block {b} has {n} successors"

end Flowgraph
