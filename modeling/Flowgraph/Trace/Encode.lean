import Flowgraph.Decimal.Double
import Flowgraph.Text.JsonString
import Flowgraph.Trace.Names
import Flowgraph.Trace.Timestamp

/-!
# Writing events

An event is written as a line of text, as a line of JSON, or as an entry of a document for a trace
viewer. Only the last needs a frame around the events and something between them.
-/

namespace Flowgraph.Trace

/-- The further entries of an event by key; of two with one key the later one counts. -/
def sortedExtra (extra : List (String × String)) : List (String × String) :=
  let last := extra.foldl (fun l e ↦ l.filter (·.1 ≠ e.1) ++ [e]) []
  last.mergeSort fun a b ↦ a.1 ≤ b.1

namespace Event

/-- The mark of an event in a line of text. -/
def mark (e : Event) : String :=
  match e.kind.code.toNat with
  | 1 => "→"
  | 2 => "←"
  | 3 => "•"
  | 4 => "♡"
  | _ => ""

/-- The event as a line of text: the time in milliseconds, the lane, and the event indented by its
scope. Times count from `start`. -/
def textLine (e : Event) (start : Int) : String :=
  let ms := (Decimal.Double.ofInt (e.time - start)).divNat 1000000
  let extra := (sortedExtra e.extra).map fun (k, v) ↦ k ++ "=" ++ v
  "[" ++ Text.padLeft 9 (ms.fixed 3) ++ "ms] #" ++ Text.padRight 3 (toString e.lane) ++ " "
    ++ String.ofList (List.replicate (2 * (e.scope.code.toNat - 1)) ' ')
    ++ e.mark ++ " " ++ e.name
    ++ (if e.detail.isEmpty then "" else s!" ({e.detail})")
    ++ (if extra.isEmpty then "" else " \x7b" ++ ", ".intercalate extra ++ "\x7d") ++ "\n"

/-- A JSON object of texts. -/
def textObject (fields : List (String × String)) : String :=
  Text.jsonObject (fields.map fun (k, v) ↦ (k, Text.jsonString v))

/-- A field that is left out when its number is zero. -/
def numberField (key : String) (n : Nat) : List (String × String) :=
  if n = 0 then [] else [(key, toString n)]

def jsonLine (e : Event) : String :=
  Text.jsonObject
    ([("time", Text.jsonString (timeText e.time)), ("seq", toString e.seq),
        ("kind", Text.jsonString e.kind.text), ("scope", Text.jsonString e.scope.text)]
      ++ numberField "span_id" e.span ++ numberField "parent_id" e.parent
      ++ numberField "lane" e.lane ++ [("name", Text.jsonString e.name)]
      ++ (if e.detail.isEmpty then [] else [("detail", Text.jsonString e.detail)])
      ++ (if e.extra.isEmpty then [] else [("extra", textObject (sortedExtra e.extra))]))
    ++ "\n"

/-- The event as an entry for a trace viewer. The detail becomes one of the further entries.
Heartbeats belong to the whole process and other points to their lane. -/
def viewerEntry (e : Event) : String :=
  let phase := if e.kind = .spanBegin then "B" else if e.kind = .spanEnd then "E" else "i"
  let reach := if e.kind = .heartbeat then "p" else "t"
  let args := sortedExtra (e.extra ++ (if e.detail.isEmpty then [] else [("detail", e.detail)]))
  Text.jsonObject
    ([("name", Text.jsonString e.name), ("cat", Text.jsonString e.scope.text),
        ("ph", Text.jsonString phase), ("ts", toString (e.time.fdiv 1000)), ("pid", "1"),
        ("tid", toString e.lane)]
      ++ (if phase = "i" then [("s", Text.jsonString reach)] else [])
      ++ (if args.isEmpty then [] else [("args", textObject args)]))

def encode (e : Event) (f : Format) (start : Int) : String :=
  if f = .ndjson then e.jsonLine
  else if f = .chrome then e.viewerEntry
  else e.textLine start

end Event

/-- What stands around and between the events of a document. -/
structure Frame where
  front : String
  separator : String
  back : String

def Format.frame (f : Format) : Frame :=
  if f = .chrome then ⟨"\x7b\"traceEvents\":[\n", ",\n", "\n]\x7d\n"⟩ else ⟨"", "", ""⟩

end Flowgraph.Trace
