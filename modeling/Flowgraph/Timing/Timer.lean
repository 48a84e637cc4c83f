import Flowgraph.Text.Padding
import Flowgraph.Timing.Duration

/-!
# Timers

A timer adds up the durations of named phases over all files of a run. Phases keep the order in
which they were first seen.
-/

namespace Flowgraph.Timing

/-- All runs of one phase. -/
structure Phase where
  name : String
  total : Duration
  runs : Nat
  note : String
deriving DecidableEq

/-- A timer: its phases in the order of their first runs. -/
structure Timer where
  phases : List Phase
deriving DecidableEq

namespace Phase

/-- A phase that never ran. -/
def fresh (name : String) : Phase := ⟨name, 0, 0, ""⟩

/-- Counts one more run; a note replaces the one before. -/
def record (p : Phase) (d : Duration) (note : String) : Phase :=
  ⟨p.name, p.total + d, p.runs + 1, if note.isEmpty then p.note else note⟩

def line (p : Phase) : String :=
  "  " ++ Text.padRight 12 p.name ++ " " ++ Text.padLeft 9 (p.total.millis.fixed 2) ++ " ms"
    ++ (if 1 < p.runs then s!"  x{p.runs}" else "")
    ++ (if p.note.isEmpty then "" else s!"  ({p.note})")

end Phase

namespace Timer

/-- The timer that has seen nothing. -/
def empty : Timer := ⟨[]⟩

/-- Counts one run of a phase. -/
def record (t : Timer) (name : String) (d : Duration) (note : String) : Timer :=
  if t.phases.any (·.name = name) then
    ⟨t.phases.map fun p ↦ if p.name = name then p.record d note else p⟩
  else ⟨t.phases ++ [(Phase.fresh name).record d note]⟩

def total (t : Timer) : Duration := t.phases.foldl (fun sum p ↦ sum + p.total) 0

/-- The table of the phases and their total. -/
def summary (t : Timer) : String :=
  "timings:\n" ++ String.join (t.phases.map fun p ↦ p.line ++ "\n")
    ++ (Phase.mk "total" t.total 1 "").line ++ "\n"

end Timer

/-- A stage that ran, with its time. -/
structure StageTime where
  stage : String
  elapsed : Duration
deriving DecidableEq

namespace StageTime

/-- The time that a stage took in a list of stages; a stage that did not run took none. -/
def lookup (l : List StageTime) (stage : String) : Option Duration :=
  (l.find? (·.stage = stage)).map StageTime.elapsed

def totalOf (l : List StageTime) : Duration := l.foldl (fun sum t ↦ sum + t.elapsed) 0

def listText (l : List StageTime) : String :=
  ", ".intercalate (l.map fun t ↦ s!"{t.stage} {t.elapsed.millis.fixed 2}ms")

end StageTime

/-- One file in the report on a run. -/
structure FileTime where
  path : String
  cached : Bool
  elapsed : Duration
  stages : List StageTime

def FileTime.line (f : FileTime) : String :=
  "  " ++ Text.padRight 40 f.path ++ " " ++ Text.padLeft 7 (f.elapsed.millis.fixed 2) ++ " ms"
    ++ (if f.stages.isEmpty then "" else s!"  [{StageTime.listText f.stages}]")

/-- The report on a run: the table of the phases, how many files came from the cache, and a line
for each file. -/
def report (t : Timer) (files : List FileTime) : String :=
  let cached := files.countP (·.cached)
  t.summary ++ (if cached = 0 then "" else s!"  {cached} of {files.length} files from cache\n")
    ++ String.join (files.map fun f ↦ f.line ++ "\n")

end Flowgraph.Timing
