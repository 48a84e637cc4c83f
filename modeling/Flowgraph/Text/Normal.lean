import Flowgraph.Text.Segment

/-!
# The composed normal form

Two spellings of a text that look the same have one normal form: take every character apart, put the
marks after each base into the order of their classes, and compose again what can be composed. This
is done segment by segment, and a segment that is cut gets a joiner at its end.

Within a segment a mark is composed with the *base*. That is the character before it if it has class
zero, and otherwise the base of the mark before; a mark of the same class or above in between keeps
it apart. A segment with a Korean letter composes nothing but syllables from that letter on.
-/

namespace Flowgraph.Text

/-- A character of a segment that is taken apart. -/
structure Part where
  code : Nat
  markClass : Nat
  /-- The character can join the one before it. -/
  joins : Bool

namespace Part

/-- A character as the tables have it. -/
def ofCode (n : Nat) : Part := ⟨n, Text.markClass n, joinsBack n⟩

/-- A character that nothing holds on to: the letters of a syllable and what is composed. -/
def fixed (n : Nat) : Part := ⟨n, 0, false⟩

/-- Does the character start anew, whatever comes before it? -/
def startsAnew (p : Part) : Bool := p.markClass = 0 && !p.joins

/-- Puts a character behind others, newest first. A mark goes before those of a higher class. -/
def insert (p : Part) : List Part → List Part
  | [] => [p]
  | q :: before =>
    if 0 < p.markClass && p.markClass < q.markClass then q :: p.insert before
    else p :: q :: before

end Part

/-! ## Composing -/

/-- The character that a pair composes to. Only the low sixteen bits of each of the two count. -/
def compose? (a b : Nat) : Option Nat :=
  (composites.find? fun (_, x, y) ↦
    x % 0x10000 = a % 0x10000 && y % 0x10000 = b % 0x10000).map Prod.fst

/-- A segment while it is composed: the base, what comes before it and what comes after it, both
newest first. -/
structure Composing where
  before : List Nat
  base : Part
  after : List Part
  /-- A Korean letter has been met. -/
  syllables : Bool

namespace Composing

/-- The characters in order. -/
def codes (s : Composing) : List Nat :=
  s.before.reverse ++ s.base.code :: (s.after.map Part.code).reverse

def newest (s : Composing) : Part := s.after.headD s.base

/-- Makes the newest character the base, if it has class zero. -/
def rebase (s : Composing) : Composing :=
  match s.after with
  | [] => s
  | p :: between =>
    if p.markClass = 0 then
      { s with before := between.map Part.code ++ s.base.code :: s.before, base := p, after := [] }
    else s

/-- Puts a character at the end. -/
def append (s : Composing) (p : Part) : Composing := { s with after := p :: s.after }

/-- Composes a character with the base, or puts it at the end if that cannot be. -/
def join (pair? : Nat → Nat → Option Nat) (s : Composing) (p : Part) : Composing :=
  let s := s.rebase
  let blocked := !s.after.isEmpty && p.markClass ≤ s.newest.markClass
  match if blocked then none else pair? s.base.code p.code with
  | some n => { s with base := .fixed n }
  | none => s.append p

def add (s : Composing) (p : Part) : Composing :=
  let s := { s with syllables := s.syllables || (0x1100 ≤ p.code && p.code ≤ 0x11FF) }
  if s.syllables then s.join syllable? p
  else if p.joins then s.join compose? p
  else s.append p

end Composing

/-- Composes characters that are given newest first. -/
def composed (parts : List Part) : List Nat :=
  match parts.reverse with
  | [] => []
  | p :: rest => (rest.foldl Composing.add ⟨[], p, [], false⟩).codes

/-! ## Normal segments -/

/-- A segment while it is taken apart: what is composed already, and the parts to be composed,
newest first. -/
abbrev Apart := List Nat × List Part

/-- Adds one character of a decomposition. What comes before it is composed if it starts anew. -/
def Apart.addPart (s : Apart) (n : Nat) : Apart :=
  let p := Part.ofCode n
  if p.startsAnew && !s.2.isEmpty then (s.1 ++ composed s.2, [p]) else (s.1, p.insert s.2)

def Apart.addCharacter (s : Apart) (n : Nat) : Apart :=
  match syllableLetters? n, decomposeOnce? n with
  | some letters, _ => (s.1, (letters.map Part.fixed).reverse ++ s.2)
  | none, some _ => (decompose n).foldl addPart s
  | none, none => (s.1, (Part.ofCode n).insert s.2)

/-- The joiner at the end of a segment that is cut. -/
def cutJoiner : Nat := 0x34F

def Segment.normal (s : Segment) : List Nat :=
  let (done, parts) := s.characters.foldl Apart.addCharacter ([], [])
  done ++ composed (if s.cut then .fixed cutJoiner :: parts else parts)

/-- The composed normal form of a text. -/
def normal (s : String) : String :=
  if s.toList.all (·.toNat < 0x300) then s
  else
    let codes := (segments (s.toList.map Char.toNat)).flatMap Segment.normal
    String.ofList (codes.map Char.ofNat)

end Flowgraph.Text
