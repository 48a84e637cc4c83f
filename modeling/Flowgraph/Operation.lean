import Flowgraph.Bytes
import Flowgraph.Index

/-!
# Operations

An operation has a list of input values and an action. Three actions end a block: a jump, a
two-way branch and a return. Codes that no action, hint or representation has are kept as they
are, so that a graph built from raw numbers can still be listed and rejected.

## Codes

A kind, a hint and a representation are bytes in a binary file. Every byte has a constructor: the
named ones for the codes in use, and `reserved` for the rest, which carries the proof that no named
constructor has its code. `ofCode` and `code` are inverse to each other for that reason, and a match
on the constructors covers everything that a file can hold.

## Renaming

Copying, renumbering and rebuilding all rename the references of an operation, each in a monad of
its own. `Operation.rename` fixes the order once: the targets first, the true one before the false
one, and then the inputs from left to right. Which failure is reported depends on that order, and so
does the order in which blocks of a copy come into being.
-/

namespace Flowgraph

/-- The statically preferred side of a branch. -/
inductive Hint where
  | unhinted
  | towardTrue
  | towardFalse
  /-- A code without a meaning. -/
  | reserved (code : { c : UInt8 // 2 < c })
deriving DecidableEq

namespace Hint

def ofCode (c : UInt8) : Hint :=
  if h : 2 < c then .reserved ⟨c, h⟩
  else if c = 0 then .unhinted else if c = 1 then .towardTrue else .towardFalse

def code : Hint → UInt8
  | .unhinted => 0
  | .towardTrue => 1
  | .towardFalse => 2
  | .reserved c => c.val

/-- The name of a hint; a code without a meaning reads as no hint. -/
def text : Hint → String
  | .towardTrue => "true"
  | .towardFalse => "false"
  | _ => "none"

end Hint

/-- The machine representation of the value of a phi. -/
inductive Representation where
  | unspecified
  | word32
  | word64
  | float64
  | tagged
  /-- A code without a meaning. -/
  | reserved (code : { c : UInt8 // 4 < c })
deriving DecidableEq

namespace Representation

def ofCode (c : UInt8) : Representation :=
  if h : 4 < c then .reserved ⟨c, h⟩
  else if c = 0 then .unspecified
  else if c = 1 then .word32
  else if c = 2 then .word64
  else if c = 3 then .float64 else .tagged

def code : Representation → UInt8
  | .unspecified => 0
  | .word32 => 1
  | .word64 => 2
  | .float64 => 3
  | .tagged => 4
  | .reserved c => c.val

/-- The name of a representation; a code without a meaning reads as none. -/
def text : Representation → String
  | .word32 => "word32"
  | .word64 => "word64"
  | .float64 => "float64"
  | .tagged => "tagged"
  | _ => "none"

end Representation

/-- What an operation does. Mnemonics and callees are bytes, since nothing forces a graph file to
hold text. -/
inductive Action where
  /-- An operation without control-flow meaning; a required one is kept even if unused. -/
  | other (mnemonic : ByteArray) (required : Bool)
  /-- An unconditional jump. -/
  | goto (target : BlockIndex)
  /-- A conditional jump on the only input. -/
  | branch (ifTrue ifFalse : BlockIndex) (hint : Hint)
  /-- Selects one input per predecessor, in predecessor order. -/
  | phi (rep : Representation)
  /-- A call with side effects. -/
  | call (callee : ByteArray)
  /-- Leaves the function. -/
  | ret
  /-- A place holder for an operation that was removed earlier. -/
  | dead
  /-- A code without a meaning. -/
  | reserved (code : { c : UInt8 // 6 < c })
deriving DecidableEq

namespace Action

def code : Action → UInt8
  | .other .. => 0
  | .goto .. => 1
  | .branch .. => 2
  | .phi .. => 3
  | .call .. => 4
  | .ret => 5
  | .dead => 6
  | .reserved c => c.val

/-- The name of an action's kind. -/
def kindText : Action → String
  | .other .. => "other"
  | .goto .. => "goto"
  | .branch .. => "branch"
  | .phi .. => "phi"
  | .call .. => "call"
  | .ret => "return"
  | .dead => "dead"
  | .reserved c => s!"opcode({c.val.toNat})"

/-- Renames the blocks that an action refers to, the true target of a branch before the false
one. -/
def rename {m : Type → Type} [Monad m] (a : Action) (block : BlockIndex → m BlockIndex) :
    m Action :=
  match a with
  | .goto t => do return .goto (← block t)
  | .branch t f hint => do
    let t' ← block t
    let f' ← block f
    return .branch t' f' hint
  | a => pure a

end Action

/-- One operation: an action applied to input values. -/
structure Operation where
  action : Action
  inputs : List OpIndex
deriving DecidableEq

namespace Operation

/-- Does the operation end a block? -/
def isTerminator (op : Operation) : Bool :=
  match op.action with
  | .goto .. | .branch .. | .ret => true
  | _ => false

/-- Does the operation jump on to another block? -/
def isJump (op : Operation) : Bool :=
  match op.action with
  | .goto .. | .branch .. => true
  | _ => false

def isPhi (op : Operation) : Bool :=
  match op.action with
  | .phi .. => true
  | _ => false

/-- Does the operation survive even when nothing uses its value? -/
def isRequired (op : Operation) : Bool :=
  match op.action with
  | .call .. | .ret => true
  | .other _ required => required
  | _ => false

/-- The blocks that a terminator leads to, the true target before the false one. -/
def successors (op : Operation) : List BlockIndex :=
  match op.action with
  | .goto t => [t]
  | .branch t f _ => [t, f]
  | _ => []

def goto (target : BlockIndex) : Operation := ⟨.goto target, []⟩

def branch (cond : OpIndex) (ifTrue ifFalse : BlockIndex) (hint : Hint) : Operation :=
  ⟨.branch ifTrue ifFalse hint, [cond]⟩

/-- An operation without effects. -/
def pure (mnemonic : ByteArray) (inputs : List OpIndex) : Operation :=
  ⟨.other mnemonic false, inputs⟩

def ret (values : List OpIndex) : Operation := ⟨.ret, values⟩

/-- An operation that was removed earlier. -/
def dead : Operation := ⟨.dead, []⟩

/-- Renames the blocks and then the values that an operation refers to. -/
def rename {m : Type → Type} [Monad m] (op : Operation) (block : BlockIndex → m BlockIndex)
    (value : OpIndex → m OpIndex) : m Operation := do
  let action ← op.action.rename block
  return ⟨action, ← op.inputs.mapM value⟩

/-- The action as a listing shows it, before the inputs. -/
def headText (op : Operation) : ByteArray :=
  match op.action with
  | .other m required => if required then m ++ "!".toUTF8 else m
  | .phi rep => ("phi." ++ rep.text).toUTF8
  | .call callee => "call ".toUTF8 ++ callee
  | a => a.kindText.toUTF8

/-- The targets as a listing shows them, after the inputs. -/
def targetText (op : Operation) : String :=
  match op.action with
  | .goto t => s!" -> {t.text}"
  | .branch t f hint =>
    s!" ? {t.text} : {f.text}" ++ (if hint = .unhinted then "" else s!" [hint={hint.text}]")
  | _ => ""

/-- The operation as a listing shows it. -/
def text (op : Operation) : ByteArray :=
  let inputs := ", ".intercalate (op.inputs.map OpIndex.text)
  op.headText ++ ((if op.inputs.isEmpty then "" else " " ++ inputs) ++ op.targetText).toUTF8

end Operation

end Flowgraph
