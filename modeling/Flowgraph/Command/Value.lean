import Flowgraph.Command.Switch
import Flowgraph.Text.Quoted
import Flowgraph.Text.Separated
import Flowgraph.Timing.DurationText

/-!
# Values of flags

The values that a flag can take, each read from a text: integers with an optional base and
underscores between digits, truth values, durations, lists and switches.
-/

namespace Flowgraph.Command

/-- Why a text is no value. -/
inductive ValueError where
  | noInteger (text : String)
  | integerOutOfRange (text : String)
  | noBoolean (text : String)
  | noDuration (e : Timing.DurationError)
  | noList (e : Text.Separated.Error)
  | noSwitch
deriving DecidableEq

def ValueError.message : ValueError → String
  | .noInteger s => s!"strconv.ParseInt: parsing {Text.quoted s}: invalid syntax"
  | .integerOutOfRange s => s!"strconv.ParseInt: parsing {Text.quoted s}: value out of range"
  | .noBoolean s => s!"strconv.ParseBool: parsing {Text.quoted s}: invalid syntax"
  | .noDuration e => e.message
  | .noList e => e.message
  | .noSwitch => Switch.expected

/-! ## Integers -/

def digitValue? (c : Char) : Option Nat :=
  if c.isDigit then some (c.toNat - '0'.toNat)
  else if c.isAlpha then some (c.toLower.toNat - 'a'.toNat + 10)
  else none

/-- The base of a number and its digits; the flag tells whether a letter names the base. A leading
zero alone stands for base eight. -/
def splitBase : List Char → Nat × Bool × List Char
  | '0' :: mark :: d :: rest =>
    match mark.toLower with
    | 'b' => (2, true, d :: rest)
    | 'o' => (8, true, d :: rest)
    | 'x' => (16, true, d :: rest)
    | _ => (8, false, mark :: d :: rest)
  | '0' :: rest => (8, false, rest)
  | cs => (10, false, cs)

/-- Do underscores stand only between digits? The flag tells whether a digit, or the mark of a base,
comes before. -/
def underscoresBetween : Bool → List Char → Bool
  | _, [] => true
  | afterDigit, c :: rest =>
    if c = '_' then afterDigit && !rest.isEmpty && underscoresBetween false rest
    else underscoresBetween true rest

/-- Why digits give no number. -/
inductive DigitFault where
  | noDigit
  | tooLarge
deriving DecidableEq

/-- The number after `n` that digits in a base write. It is found too large as soon as it is. -/
def digitsFrom (base : Nat) : Nat → List Char → Except DigitFault Nat
  | n, [] => .ok n
  | n, c :: rest =>
    if c = '_' then digitsFrom base n rest
    else
      match digitValue? c with
      | none => .error .noDigit
      | some d =>
        if base ≤ d then .error .noDigit
        else if 0x10000000000000000 ≤ n * base + d then .error .tooLarge
        else digitsFrom base (n * base + d) rest

def readInteger (s : String) : Except ValueError Int :=
  let negative := s.toList.head? = some '-'
  let signed := negative || s.toList.head? = some '+'
  let cs := if signed then s.toList.tail else s.toList
  let (base, marked, digits) := splitBase cs
  if cs.isEmpty then .error (.noInteger s)
  else
    match digitsFrom base 0 digits with
    | .error .noDigit => .error (.noInteger s)
    | .error .tooLarge => .error (.integerOutOfRange s)
    | .ok n =>
      if !underscoresBetween marked (if marked then digits else cs) then .error (.noInteger s)
      else
        let value : Int := if negative then -n else n
        if -0x8000000000000000 ≤ value ∧ value < 0x8000000000000000 then .ok value
        else .error (.integerOutOfRange s)

/-! ## Other values -/

def trueWords : List String := ["1", "t", "T", "TRUE", "true", "True"]

def falseWords : List String := ["0", "f", "F", "FALSE", "false", "False"]

def readBoolean (s : String) : Except ValueError Bool :=
  if trueWords.contains s then .ok true
  else if falseWords.contains s then .ok false
  else .error (.noBoolean s)

def readDuration (s : String) : Except ValueError Int :=
  (Timing.parseDuration s).mapError .noDuration

/-- Reads a list; no text is the empty list. -/
def readList (s : String) : Except ValueError (List String) :=
  if s = "" then .ok [] else (Text.Separated.fields s).mapError .noList

def readSwitch (s : String) : Except ValueError Switch :=
  match Switch.parse? s with
  | some v => .ok v
  | none => .error .noSwitch

end Flowgraph.Command
