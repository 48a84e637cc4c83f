import Flowgraph.Text.Cells
import Flowgraph.Text.Escape

/-!
# Columns of styled texts

A styled text is a block of lines of one width. The width of a line counts what is shown: escape
sequences and controls take no column, a printable ASCII character takes one, and any other
character opens a cluster, which takes the columns of all its characters unless it is a pictograph,
a flag or a syllable.
-/

namespace Flowgraph.Text

/-- Wide characters that take one column: signs for describing ideographs. -/
def narrowRanges : List (Nat × Nat) := [(0x2FFC, 0x2FFF), (0x31EF, 0x31EF)]

/-- Wide pictographs that are shown as text and take one column. -/
def textPictographRanges : List (Nat × Nat) :=
  [(0x3030, 0x3030), (0x303D, 0x303D), (0x3297, 0x3297), (0x3299, 0x3299), (0x1F202, 0x1F202),
   (0x1F237, 0x1F237), (0x1F260, 0x1F265)]

def charColumns (k : ClusterClass) (c : Char) : Nat :=
  let n := c.toNat
  let wide := inRanges wideRanges n && !inRanges narrowRanges n
  match k with
  | .control | .returns | .feeds | .attaching | .joiner => 0
  | .flagLetter => 2
  | .pictograph => if wide && !inRanges textPictographRanges n then 2 else 1
  | _ =>
    if n = 0x2E3A then 3
    else if n = 0x2E3B then 4
    else if wide then 2
    else 1

/-- A cluster whose end is not yet known. -/
structure OpenCluster where
  context : ClusterContext
  /-- The class of its first character. -/
  first : ClusterClass
  columns : Nat

def OpenCluster.start (c : Char) : OpenCluster :=
  let k := clusterClass c
  ⟨.start k, k, charColumns k c⟩

/-- The cluster with one more character. A pictograph is as wide as the style after it asks for; a
flag and a syllable are as wide as their first letters. -/
def OpenCluster.extend (o : OpenCluster) (c : Char) : OpenCluster where
  context := o.context.next (clusterClass c)
  first := o.first
  columns :=
    match o.first with
    | .pictograph =>
      if c.toNat = 0xFE0E then 1 else if c.toNat = 0xFE0F then 2 else o.columns
    | .flagLetter | .leadConsonant => o.columns
    | _ => o.columns + charColumns (clusterClass c) c

/-- How far a line has been measured. -/
structure Measure where
  columns : Nat
  escape : Escape
  /-- The cluster at the end, which is not yet counted. -/
  cluster? : Option OpenCluster

namespace Measure

/-- At the beginning of a line. -/
def start : Measure := ⟨0, .ground, none⟩

/-- Counts the cluster at the end. -/
def close (m : Measure) : Measure :=
  match m.cluster? with
  | some o => ⟨m.columns + o.columns, .ground, none⟩
  | none => m

/-- Measures a character that no cluster goes on with. -/
def nextApart (m : Measure) (c : Char) : Measure :=
  if c.toNat < 0x80 then
    let shown := m.escape = .ground && 0x20 ≤ c.toNat && c.toNat ≠ 0x7F
    { m with
      columns := m.columns + (if shown then 1 else 0)
      escape := m.escape.next c.toNat }
  else if m.escape.holdsData then
    { m with escape := c.toString.toUTF8.toList.foldl (fun e b ↦ e.next b.toNat) m.escape }
  else { m with cluster? := some (.start c) }

def next (m : Measure) (c : Char) : Measure :=
  match m.cluster? with
  | some o =>
    if o.context.ties (clusterClass c) then { m with cluster? := some (o.extend c) }
    else m.close.nextApart c
  | none => m.nextApart c

end Measure

def columns (line : List Char) : Nat := (line.foldl Measure.next .start).close.columns

def linesOf : List Char → List (List Char)
  | [] => [[]]
  | c :: rest =>
    match c, linesOf rest with
    | '\n', lines => [] :: lines
    | c, line :: lines => (c :: line) :: lines
    | c, [] => [[c]]

/-- The text as a block: a tab is four spaces, and if there is more than one line, spaces bring
every line to the width of the widest. -/
def block (s : String) : String :=
  let lines := linesOf (s.toList.flatMap fun c ↦ if c = '\t' then "    ".toList else [c])
  match lines with
  | [line] => String.ofList line
  | lines =>
    let widest := (lines.map columns).foldl max 0
    let filled (line : List Char) : String :=
      String.ofList (line ++ List.replicate (widest - columns line) ' ')
    "\n".intercalate (lines.map filled)

end Flowgraph.Text
