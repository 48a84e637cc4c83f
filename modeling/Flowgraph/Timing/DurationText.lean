import Flowgraph.Decimal.Double
import Flowgraph.Text.Quoted

/-!
# Durations in words

A duration is written as a signed sequence of numbers with units, such as `1h15m30.5s`. It has to
fit into 64 bits of nanoseconds. The part of a number behind its point is scaled in double
precision, so it can lose a nanosecond.
-/

namespace Flowgraph.Timing

/-- Why a text is no duration. -/
inductive DurationError where
  | invalid (text : String)
  | missingUnit (text : String)
  | unknownUnit (unit text : String)
deriving DecidableEq

/-- A text between quotes, with an escape for every byte outside the ASCII characters. -/
def byteQuoted (s : String) : String :=
  let char (c : Char) : String :=
    if c = '"' || c = '\\' then "\\" ++ c.toString
    else if 0x20 ≤ c.toNat && c.toNat < 0x80 then c.toString
    else String.join (c.toString.toUTF8.toList.map fun b ↦ "\\x" ++ Text.hexDigits 2 b.toNat)
  "\"" ++ String.join (s.toList.map char) ++ "\""

def DurationError.message : DurationError → String
  | .invalid s => s!"time: invalid duration {byteQuoted s}"
  | .missingUnit s => s!"time: missing unit in duration {byteQuoted s}"
  | .unknownUnit u s => s!"time: unknown unit {byteQuoted u} in duration {byteQuoted s}"

def units : List (String × Nat) :=
  [("ns", 1), ("us", 1000), ("µs", 1000), ("μs", 1000), ("ms", 1000000), ("s", 1000000000),
   ("m", 60000000000), ("h", 3600000000000)]

def durationBound : Nat := 0x8000000000000000

/-- The number written by decimal digits. -/
def decimalValue (cs : List Char) : Nat := cs.foldl (fun n c ↦ n * 10 + (c.toNat - '0'.toNat)) 0

/-- The digits after a point, read as a number and the power of ten it is over. Digits that do not
fit into 64 bits are left out, and so is everything behind them. -/
def fractionDigits (value : Nat) (scale : Decimal.Double) : List Char → Nat × Decimal.Double
  | [] => (value, scale)
  | c :: rest =>
    let longer := value * 10 + (c.toNat - '0'.toNat)
    if (durationBound - 1) / 10 < value || durationBound < longer then (value, scale)
    else fractionDigits longer (scale.mul (.ofInt 10)) rest

/-- The whole nanoseconds in a fraction of a unit, computed in double precision. -/
def fractionOf (unit : Nat) (digits : List Char) : Nat :=
  let (value, scale) := fractionDigits 0 (.ofInt 1) digits
  ((Decimal.Double.ofInt value).mul ((Decimal.Double.ofInt unit).div scale)).whole

/-- A number with its unit at the head of a text, in nanoseconds, and the text after it. The error
is for the whole text. -/
def leadingAmount (whole : String) (cs : List Char) : Except DurationError (Nat × List Char) :=
  let integer := cs.takeWhile Char.isDigit
  let point := cs.dropWhile Char.isDigit
  let fraction := if point.head? = some '.' then point.tail.takeWhile Char.isDigit else []
  let rest := if point.head? = some '.' then point.tail.dropWhile Char.isDigit else point
  let isUnit (c : Char) : Bool := c ≠ '.' && !c.isDigit
  let unit := String.ofList (rest.takeWhile isUnit)
  if integer.isEmpty && fraction.isEmpty || durationBound < decimalValue integer then
    .error (.invalid whole)
  else if unit.isEmpty then .error (.missingUnit whole)
  else
    match units.lookup unit with
    | none => .error (.unknownUnit unit whole)
    | some size =>
      let amount := decimalValue integer * size + fractionOf size fraction
      if durationBound < amount then .error (.invalid whole)
      else .ok (amount, rest.dropWhile isUnit)

/-- The sum of all numbers with their units, kept in 64 bits. The first argument bounds their
count. -/
def amounts (whole : String) : Nat → Nat → List Char → Except DurationError Nat
  | _, sum, [] => .ok sum
  | 0, _, _ => .error (.invalid whole)
  | fuel + 1, sum, cs => do
    let (amount, rest) ← leadingAmount whole cs
    let sum := (sum + amount) % 0x10000000000000000
    if durationBound < sum then throw (.invalid whole)
    amounts whole fuel sum rest

/-- The nanoseconds of a duration. A lone zero needs no unit. -/
def parseDuration (s : String) : Except DurationError Int :=
  let negative := s.toList.head? = some '-'
  let signed := negative || s.toList.head? = some '+'
  let cs := if signed then s.toList.tail else s.toList
  if cs = ['0'] then .ok 0
  else if cs.isEmpty then .error (.invalid s)
  else do
    let sum ← amounts s cs.length 0 cs
    if negative then return -sum
    if durationBound ≤ sum then throw (.invalid s)
    return sum

end Flowgraph.Timing
