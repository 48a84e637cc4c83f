import Flowgraph.Text.Padding

/-!
# Points in time

A point in time is a number of nanoseconds since the start of 1970 in universal time. Its text is
the date and the time of day, with as many places after the second as it needs.
-/

namespace Flowgraph.Trace

/-- A calendar day. -/
structure Day where
  year : Int
  month : Nat
  day : Nat
deriving DecidableEq

/-- The day a number of days after the start of 1970. Years are counted from March, so that a leap
day is the last day of its year. -/
def Day.ofNumber (n : Int) : Day :=
  let n := n + 719468
  let era := n.fdiv 146097
  let ofEra := (n.fmod 146097).toNat
  let yearOfEra := (ofEra - ofEra / 1460 + ofEra / 36524 - ofEra / 146096) / 365
  let ofYear := ofEra - (365 * yearOfEra + yearOfEra / 4 - yearOfEra / 100)
  let fromMarch := (5 * ofYear + 2) / 153
  let month := if fromMarch < 10 then fromMarch + 3 else fromMarch - 9
  ⟨(yearOfEra : Int) + era * 400 + (if month ≤ 2 then 1 else 0), month,
    ofYear - (153 * fromMarch + 2) / 5 + 1⟩

/-- A number with at least `width` decimal digits. -/
def paddedNumber (width n : Nat) : String :=
  let digits := Nat.toDigits 10 n
  String.ofList (List.replicate (width - digits.length) '0' ++ digits)

/-- The fraction of a second, without zeros at its end. -/
def fractionText (nanos : Nat) : String :=
  let digits := (paddedNumber 9 nanos).toList.reverse.dropWhile (· = '0')
  if digits.isEmpty then "" else "." ++ String.ofList digits.reverse

def timeText (ns : Int) : String :=
  let seconds := ns.fdiv 1000000000
  let d := Day.ofNumber (seconds.fdiv 86400)
  let s := (seconds.fmod 86400).toNat
  paddedNumber 4 d.year.toNat ++ "-" ++ paddedNumber 2 d.month ++ "-" ++ paddedNumber 2 d.day
    ++ "T" ++ paddedNumber 2 (s / 3600) ++ ":" ++ paddedNumber 2 (s / 60 % 60)
    ++ ":" ++ paddedNumber 2 (s % 60) ++ fractionText (ns.fmod 1000000000).toNat ++ "Z"

end Flowgraph.Trace
