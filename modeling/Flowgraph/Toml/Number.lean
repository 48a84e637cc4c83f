/-!
# Numbers and dates in TOML

A number or date is first cut out by its characters alone and then checked. Integers have their
value; of floating-point numbers and dates only their validity counts, since nothing is read into
them.
-/

namespace Flowgraph.Toml

def isDecimal (c : Char) : Bool := '0' ≤ c && c ≤ '9'

/-- The value of a hexadecimal digit. -/
def hexValue? (c : Char) : Option Nat :=
  if '0' ≤ c ∧ c ≤ '9' then some (c.toNat - '0'.toNat)
  else if 'a' ≤ c ∧ c ≤ 'f' then some (c.toNat - 'a'.toNat + 10)
  else if 'A' ≤ c ∧ c ≤ 'F' then some (c.toNat - 'A'.toNat + 10)
  else none

/-- The characters of a number or date. -/
inductive Lexeme where
  | integer (cs : List Char)
  | float (cs : List Char)
  | date (cs : List Char)

namespace Lexeme

/-- Cuts at the first character that is not of a class, and counts `front` to what is cut off. -/
def cut (make : List Char → Lexeme) (ofClass : Char → Bool) (front rest : List Char) :
    Lexeme × List Char :=
  (make (front ++ rest.takeWhile ofClass), rest.dropWhile ofClass)

/-- A floating-point number from its point or exponent on. -/
def cutFloat : List Char → List Char → Lexeme × List Char :=
  cut .float fun c ↦ isDecimal c || "_.-+eE".toList.contains c

/-- A decimal number from its first underscore on, or after its sign. -/
def cutDecimal (front rest : List Char) : Lexeme × List Char :=
  let digits := fun c ↦ isDecimal c || c = '_'
  let front := front ++ rest.takeWhile digits
  let rest := rest.dropWhile digits
  match rest with
  | '.' :: _ | 'e' :: _ | 'E' :: _ => cutFloat front rest
  | _ => (.integer front, rest)

/-- A number or date that starts with a decimal digit. -/
def cutPlain (front rest : List Char) : Lexeme × List Char :=
  let front := front ++ rest.takeWhile isDecimal
  let rest := rest.dropWhile isDecimal
  match rest with
  | '-' :: _ | ':' :: _ =>
    cut .date (fun c ↦ isDecimal c || "-:Tt .Zz+".toList.contains c) front rest
  | '_' :: _ => cutDecimal front rest
  | '.' :: _ | 'e' :: _ | 'E' :: _ => cutFloat front rest
  | _ => (.integer front, rest)

/-- A number in a base other than ten; a digit has to follow the mark of the base. -/
def cutBase (mark : Char) (base : Nat) (rest : List Char) : Option (Lexeme × List Char) :=
  let isDigit (c : Char) : Bool := (hexValue? c).any fun n ↦ decide (n < base)
  match rest with
  | c :: _ =>
    if isDigit c then some (cut .integer (fun c ↦ isDigit c || c = '_') ['0', mark] rest) else none
  | [] => none

/-- Cuts a number or date off the front. -/
def cut? : List Char → Option (Lexeme × List Char)
  | '0' :: rest =>
    match rest with
    | 'b' :: rest => cutBase 'b' 2 rest
    | 'o' :: rest => cutBase 'o' 8 rest
    | 'x' :: rest => cutBase 'x' 16 rest
    | c :: _ =>
      if c = '-' || c = ':' then some (.integer ['0'], rest) else some (cutPlain ['0'] rest)
    | [] => some (.integer ['0'], [])
  | sign :: rest =>
    if sign = '+' || sign = '-' then
      match rest with
      | 'i' :: 'n' :: 'f' :: rest => some (.float (sign :: "inf".toList), rest)
      | 'n' :: 'a' :: 'n' :: rest => some (.float (sign :: "nan".toList), rest)
      | '0' :: 'b' :: _ | '0' :: 'o' :: _ | '0' :: 'x' :: _ => none
      | c :: _ => if isDecimal c then some (cutDecimal [sign] rest) else none
      | [] => none
    else if isDecimal sign then some (cutPlain [sign] rest)
    else none
  | [] => none

end Lexeme

/-- Does every underscore stand between digits, and does the number end in a digit? -/
def underscoresOk (cs : List Char) : Bool :=
  (cs.foldl
    (fun (ok, afterDigit) c ↦ (ok && (c ≠ '_' || afterDigit), (hexValue? c).isSome))
    (true, false)) = (true, true)

/-- Does a number of several digits start with a zero that marks no base? -/
def leadingZero : List Char → Bool
  | '0' :: c :: _ => !"box".toList.contains c
  | '-' :: '0' :: _ :: _ | '+' :: '0' :: _ :: _ => true
  | _ => false

def digitsValue (base : Nat) (cs : List Char) : Nat :=
  cs.foldl (fun n c ↦ n * base + (hexValue? c).getD 0) 0

/-- The value of an integer; it has to fit 64 bits with a sign. -/
def integerValue? (cs : List Char) : Option Int :=
  if !underscoresOk cs || leadingZero cs then none
  else
    let n : Int :=
      match cs.filter (· ≠ '_') with
      | '0' :: 'b' :: ds => digitsValue 2 ds
      | '0' :: 'o' :: ds => digitsValue 8 ds
      | '0' :: 'x' :: ds => digitsValue 16 ds
      | '-' :: ds => -(digitsValue 10 ds : Int)
      | '+' :: ds => digitsValue 10 ds
      | ds => digitsValue 10 ds
    if -0x8000000000000000 ≤ n ∧ n < 0x8000000000000000 then some n else none

/-- Is a point always followed by a digit? -/
def pointsOk : List Char → Bool
  | [] => true
  | '.' :: rest => (rest.head?.map isDecimal).getD false && pointsOk rest
  | _ :: rest => pointsOk rest

/-- The text without a sign at its front. -/
def dropSign : List Char → List Char
  | '+' :: cs | '-' :: cs => cs
  | cs => cs

/-- The exponent written after the mark of an exponent, if it is well formed. -/
def exponent? (cs : List Char) : Option Int :=
  let digits := dropSign cs
  if digits.isEmpty || !digits.all isDecimal then none
  else some (if cs.head? = some '-' then -(digitsValue 10 digits : Int) else digitsValue 10 digits)

/-- Is `digits · 10 ^ exponent` below the least number that rounds beyond the largest double? -/
def withinDouble (digits : Nat) (exponent : Int) : Bool :=
  let limit := 0x3FFFFFFFFFFFFF <<< 970
  if digits = 0 then true
  else if 400 < exponent then false
  else if 0 ≤ exponent then digits * Nat.pow 10 exponent.toNat < limit
  else
    let places := (-exponent).toNat
    places ≥ (Nat.toDigits 10 digits).length || digits < limit * Nat.pow 10 places

/-- Is the text a floating-point number that a double can hold? -/
def isFloat (cs : List Char) : Bool :=
  let parts := cs.splitBy fun a b ↦ !".eE".toList.contains a && !".eE".toList.contains b
  let parts := parts.filter fun p ↦ !(p.head?.map ".eE".toList.contains).getD true
  let special := ["inf".toList, "nan".toList].contains (dropSign cs)
  if special then true
  else if !parts.all underscoresOk || (parts.head?.map leadingZero).getD false || !pointsOk cs then
    false
  else
    let cs := dropSign (cs.filter (· ≠ '_'))
    let whole := cs.takeWhile isDecimal
    let rest := cs.dropWhile isDecimal
    let fraction := match rest with
      | '.' :: rest => rest.takeWhile isDecimal
      | _ => []
    let rest := match rest with
      | '.' :: rest => rest.dropWhile isDecimal
      | rest => rest
    let exponent := match rest with
      | [] => some 0
      | 'e' :: rest | 'E' :: rest => exponent? rest
      | _ => none
    match exponent with
    | none => false
    | some e =>
      !whole.isEmpty && withinDouble (digitsValue 10 (whole ++ fraction)) (e - fraction.length)

/-! ## Dates -/

def daysIn (year month : Nat) : Nat :=
  if month = 2 then
    if year % 4 = 0 ∧ (year % 100 ≠ 0 ∨ year % 400 = 0) then 29 else 28
  else if month = 4 ∨ month = 6 ∨ month = 9 ∨ month = 11 then 30
  else 31

/-- Exactly `n` decimal digits off the front. -/
def fixedDigits (n : Nat) (cs : List Char) : Option (Nat × List Char) :=
  let front := cs.take n
  if front.length = n ∧ front.all isDecimal then some (digitsValue 10 front, cs.drop n) else none

/-- A given character off the front. -/
def literal (c : Char) : List Char → Option (List Char)
  | d :: rest => if c = d then some rest else none
  | [] => none

/-- A date off the front. -/
def dateRest? (cs : List Char) : Option (List Char) := do
  let (year, cs) ← fixedDigits 4 cs
  let cs ← literal '-' cs
  let (month, cs) ← fixedDigits 2 cs
  let cs ← literal '-' cs
  let (day, cs) ← fixedDigits 2 cs
  if 1 ≤ month ∧ month ≤ 12 ∧ 1 ≤ day ∧ day ≤ daysIn year month then some cs else none

/-- A time of day off the front, with a fraction of a second if there is one. The hour may have one
digit. -/
def timeRest? (cs : List Char) : Option (List Char) := do
  let (hour, cs) ← fixedDigits 2 cs <|> fixedDigits 1 cs
  let cs ← literal ':' cs
  let (minute, cs) ← fixedDigits 2 cs
  let cs ← literal ':' cs
  let (second, cs) ← fixedDigits 2 cs
  if 24 ≤ hour ∨ 60 ≤ minute ∨ 60 ≤ second then none
  match cs with
  | '.' :: c :: rest => if isDecimal c then some (rest.dropWhile isDecimal) else some cs
  | _ => some cs

/-- The offset of a time zone off the front. -/
def zoneRest? : List Char → Option (List Char)
  | 'Z' :: rest => some rest
  | sign :: cs => do
    if sign ≠ '+' ∧ sign ≠ '-' then none
    let (hours, cs) ← fixedDigits 2 cs
    let cs ← literal ':' cs
    let (minutes, cs) ← fixedDigits 2 cs
    if 24 < hours ∨ 60 < minutes then none else some cs
  | [] => none

/-- Is the text a date, a time, or both with or without a zone? -/
def isDate (cs : List Char) : Bool :=
  let cs := cs.reverse.dropWhile (· = ' ') |>.reverse
  let cs := cs.map fun c ↦ if c = 'z' then 'Z' else if c = 't' || c = ' ' then 'T' else c
  let dateTime := dateRest? cs >>= literal 'T' >>= timeRest?
  [dateTime >>= zoneRest?, dateTime, dateRest? cs, timeRest? cs].contains (some [])

end Flowgraph.Toml
