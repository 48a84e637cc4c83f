import Flowgraph.Rebuild.Reducer

/-!
# Edits by hand

A reducer that follows a list of edits: blocks to leave out or to keep, operations to drop, to
replace by a jump or to replace by a named operation. With a name it remarks on everything that
passes through it.
-/

namespace Flowgraph

/-- A list of edits. -/
structure Edits where
  /-- The name under which remarks are made; without one there are none. -/
  name : String
  skip : List BlockIndex
  keep : List BlockIndex
  drop : List OpIndex
  redirect : List (OpIndex × BlockIndex)
  renamed : List (OpIndex × ByteArray)

namespace Edits

/-- Makes a remark if the edits are named. -/
def remark (e : Edits) (s : String) : Build Unit :=
  if e.name.isEmpty then pure () else Build.remark s!"{e.name}:{s}"

/-- Values as remarks show them. -/
def valuesText (values : List (Option OpIndex)) : String :=
  "[" ++ " ".intercalate (values.map OpIndex.optionText) ++ "]"

/-- The remark on an operation before it is reduced. -/
def describe (i : OpIndex) : Build String := do
  let a ← get
  let op ← Build.ofExcept (a.source.op i)
  let head := s!"{i.text}@{BlockIndex.optionText a.current}"
  if op.isPhi then
    let (inputs, complete) ← Build.phiInputs i
    return s!"{head} phi{valuesText inputs} {complete}"
  else
    let inputs ← op.inputs.mapM Build.mapValue
    return s!"{head} in{valuesText inputs} out={a.output.opCount}"

def reducer (e : Edits) : Reducer where
  block next b := do
    e.remark b.text
    if e.skip.contains b then return false
    else if e.keep.contains b then return true
    else next b
  operation next i := do
    if !e.name.isEmpty then e.remark (← describe i)
    if e.drop.contains i then return none
    match e.redirect.lookup i, e.renamed.lookup i with
    | some b, _ => return some (← Build.emit (.goto (← Build.mapBlock b)))
    | none, some m =>
      let op ← Build.ofExcept ((← get).source.op i)
      return some (← Build.emit (.pure m (← op.inputs.mapM Build.mapInput)))
    | none, none =>
      let v ← next i
      e.remark s!"{i.text}={OpIndex.optionText v}"
      return v

end Edits

end Flowgraph
