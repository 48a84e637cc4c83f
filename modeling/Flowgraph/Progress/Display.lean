import Flowgraph.Progress.Row
import Flowgraph.Text.Columns
import Flowgraph.Text.Padding

/-!
# The progress of a run

The display has a row for each file, under a title with a spinner and above a bar. It is closed when
no more reports come.

## Routing

A report names a file by its path, and the display keeps one row for each listed path. Where a path
is listed more than once the last of its rows takes all reports on it, and the rows before it stay
as they began.
-/

namespace Flowgraph.Progress

/-- The display of a run. -/
structure Display where
  title : String
  rows : List Row
  /-- The width of the terminal in cells. -/
  width : Nat
  barWidth : Nat
  /-- The picture of the spinner by number. -/
  frame : Nat
  closed : Bool

/-- What can happen to a display. -/
inductive Message where
  | report (e : Report)
  /-- No more reports come. -/
  | closed
  /-- The user asks to stop. -/
  | interrupt
  /-- Any other key. -/
  | key
  /-- The terminal has a new width. -/
  | resize (width : Int)
  /-- The spinner moves on. -/
  | tick

namespace Display

def spinner : List String := ["⠋", "⠙", "⠹", "⠸", "⠼", "⠴", "⠦", "⠧", "⠇", "⠏"]

def start (title : String) (files : List String) : Display :=
  ⟨title, files.map .waiting, 80, 76, 0, false⟩

/-- The row that reports on a file go to: the last one, if the file is listed twice. -/
def rowOf? (d : Display) (file : String) : Option Nat :=
  (d.rows.reverse.findIdx? (·.path = file)).map fun i ↦ d.rows.length - 1 - i

/-- Takes note of a report; one on an unknown file is passed over. -/
def apply (d : Display) (e : Report) : Display :=
  match d.rowOf? e.file with
  | some i => { d with rows := d.rows.modify i (·.apply e) }
  | none => d

/-- The display after a message, and whether it should end. -/
def update (d : Display) : Message → Display × Bool
  | .report e => (d.apply e, false)
  | .closed => ({ d with closed := true }, true)
  | .interrupt => (d, true)
  | .key => (d, false)
  | .resize w =>
    if 0 < w then ({ d with width := w.toNat, barWidth := max (w.toNat - 4) 10 }, false)
    else (d, false)
  | .tick => (if d.closed then d else { d with frame := (d.frame + 1) % spinner.length }, false)

/-- The mean of the fractions of the rows. -/
def percent (d : Display) : Decimal.Double :=
  if d.rows.isEmpty then .zero
  else (d.rows.foldl (fun sum r ↦ Decimal.Double.add sum r.fraction) .zero).divNat d.rows.length

def finishedCount (d : Display) : Nat := d.rows.countP (·.finished)

def labelWidth : Nat := 9

def timeWidth : Nat := 10

def pathWidth (d : Display) : Nat := max (d.width - labelWidth - timeWidth - 6) 20

/-- The lines of a row: its label, path and time, and the failure below it. -/
def rowText (d : Display) (r : Row) : String :=
  let took := if r.finished && 0 < r.elapsed then
    Text.padLeft 8 (r.elapsed.millis.fixed 1) ++ "ms" else ""
  "  " ++ Text.block (Text.padRight labelWidth r.label) ++ " "
    ++ Text.padRight d.pathWidth (Text.truncate r.path d.pathWidth) ++ " " ++ took ++ "\n"
    ++ (if r.failure.isEmpty then ""
      else "  " ++ Text.padLeft labelWidth "" ++ " "
        ++ Text.block (Text.truncate r.failure (d.pathWidth + timeWidth)) ++ "\n")

/-- The text of the display; without files it is empty. -/
def view (d : Display) : String :=
  if d.rows.isEmpty then ""
  else
    let lead := if d.closed then "✓" else spinner.getD d.frame ""
    let title := Text.block s!"{d.title} [{d.finishedCount}/{d.rows.length}]"
    let bar := List.replicate d.barWidth (if d.closed then '█' else '░')
    lead ++ " " ++ title ++ "\n\n" ++ String.join (d.rows.map d.rowText) ++ "\n"
      ++ String.ofList bar ++ "\n"

end Display

end Flowgraph.Progress
