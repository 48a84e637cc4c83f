import Flowgraph.Batch.Outcome
import Flowgraph.Config.Basic
import Flowgraph.Graph.Listing
import Flowgraph.Text.Color
import Flowgraph.Text.Padding
import Flowgraph.Timing.Timer

/-!
# Reports

The texts that commands print about graphs and about the outcomes of a batch.
-/

namespace Flowgraph.Command

open Pipeline (LoopSummary)

/-! ## Labels -/

/-- The label of something that failed. -/
def errorLabel (color : Bool) (s : String) : String := if color then Text.bold 31 s else s

/-- The label of something that went well. -/
def okLabel (color : Bool) (s : String) : String := if color then Text.bold 32 s else s

def remark (color : Bool) (s : String) : String := if color then Text.faint s else s

/-! ## Orders and loops -/

def blocksText (blocks : List BlockIndex) : String := " ".intercalate (blocks.map BlockIndex.text)

/-- The line of a loop, indented by its depth. -/
def loopLine (l : LoopSummary) (number : Nat) : String :=
  String.ofList (List.replicate (2 * l.depth.toNat) ' ') ++ s!"L{number} header {l.header.text}"
    ++ (if 0 ≤ l.parent then s!" in L{l.parent}" else "")
    ++ s!": {blocksText (l.members.getD [])}\n"

def loopLines (loops : List LoopSummary) : String :=
  String.join (loops.zipIdx.map fun (l, i) ↦ loopLine l i)

/-- The lines of a table. All columns but the last are padded to their widest text and two spaces
more. -/
def tableLines (rows : List (List String)) : String :=
  let width (column : Nat) : Nat := (rows.map fun row ↦ (row[column]?.getD "").length).foldl max 0
  let line (row : List String) : String :=
    String.join (row.zipIdx.map fun (cell, i) ↦
      if i + 1 < row.length then Text.padRight (width i + 2) cell else cell)
  String.join (rows.map fun row ↦ line row ++ "\n")

/-- The row of a block at its position in the order: the block of the input, and the kind and the
mark of the block that stands there. The depth is the number of loops around it. -/
def orderRow (r : Pipeline.Result) (position : Nat) (b : BlockIndex) : List String :=
  let block? := r.graph.blocks[position]?
  [toString position, b.text, (block?.map fun blk ↦ blk.kind.text).getD "",
    toString (r.loops.countP fun l ↦ (l.members.getD []).contains b),
    if (block?.map Block.deferred).getD false then "yes" else ""]

/-- The order of a graph, its loops, and a table of its blocks. -/
def orderReport (r : Pipeline.Result) : String :=
  let order := r.order.getD []
  s!"order: {blocksText order}\n"
    ++ (if r.loops.isEmpty then "" else "loops:\n" ++ loopLines r.loops)
    ++ tableLines (["pos", "block", "kind", "depth", "deferred"]
        :: order.zipIdx.map fun (b, i) ↦ orderRow r i b)

/-! ## Outcomes -/

/-- What is printed about the result of a file: what the configuration asks for, in a fixed
order. -/
def resultReport (c : Config) (color quiet : Bool) (o : Batch.Outcome) (r : Pipeline.Result) :
    ByteArray :=
  let order := match c.emits "order", r.order with
    | true, some blocks => s!"{o.path}: order {blocksText blocks}\n" ++ loopLines r.loops
    | _, _ => ""
  let cached := if o.cached then " " ++ remark color "(cached)" else ""
  let stats := if c.emits "stats" then s!"{o.path}: {r.stats.text}{cached}\n" else ""
  let graph :=
    if !c.emits "graph" then .empty
    else if o.output = "" then r.graph.listing
    else if quiet then .empty
    else (okLabel color "wrote" ++ s!" {o.output}\n").toUTF8
  (order ++ stats).toUTF8 ++ graph

/-- The time of a file in the report on a run. -/
def fileTime (o : Batch.Outcome) : Timing.FileTime :=
  ⟨o.path, o.cached, 0, ((o.result?.map Pipeline.Result.stages).getD []).map fun s ↦ ⟨s.text, 0⟩⟩

end Flowgraph.Command
