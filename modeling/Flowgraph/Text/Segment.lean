import Flowgraph.Text.Decomposition

/-!
# Segments of a text

A text is brought into a normal form segment by segment. A segment is a character together with the
marks after it: nothing outside a segment can change with what is inside. A letter that joins the
one before it counts as a mark, and so does a character that is only another form of a mark.

A segment holds at most thirty marks, so that a reader needs no more than a fixed room for it. Where
a text has more of them, the segment is cut.
-/

namespace Flowgraph.Text

/-- The class of a combining mark; any other character has class zero. -/
def markClass (n : Nat) : Nat :=
  ((markClasses.find? fun (lo, hi, _) ↦ lo ≤ n && n ≤ hi).map (·.2.2)).getD 0

/-! ## Korean syllables -/

/-- The number of final consonants, with none as the first. -/
def finalCount : Nat := 28

def vowelCount : Nat := 21

def leadCount : Nat := 19

def syllableLetters? (n : Nat) : Option (List Nat) :=
  if 0xAC00 ≤ n ∧ n < 0xAC00 + leadCount * vowelCount * finalCount then
    let i := n - 0xAC00
    let front := [0x1100 + i / (vowelCount * finalCount),
      0x1161 + i % (vowelCount * finalCount) / finalCount]
    some (if i % finalCount = 0 then front else front ++ [0x11A7 + i % finalCount])
  else none

/-- The syllable of a leading consonant with a vowel, or of such a syllable with a final
consonant. -/
def syllable? (a b : Nat) : Option Nat :=
  if 0x1100 ≤ a ∧ a < 0x1100 + leadCount ∧ 0x1161 ≤ b ∧ b < 0x1161 + vowelCount then
    some (0xAC00 + ((a - 0x1100) * vowelCount + (b - 0x1161)) * finalCount)
  else if 0xAC00 ≤ a ∧ a < 0xAC00 + leadCount * vowelCount * finalCount
      ∧ (a - 0xAC00) % finalCount = 0 ∧ 0x11A7 < b ∧ b < 0x11A7 + finalCount then
    some (a + (b - 0x11A7))
  else none

/-! ## Taking apart -/

/-- One step of the decomposition of a character that is no syllable. -/
def decomposeOnce? (n : Nat) : Option (List Nat) :=
  (((composites.lookup n).or (pairVariants.lookup n)).map fun (a, b) ↦ [a, b]).or
    ((variants.lookup n).map ([·]))

/-- The decomposition of a character in at most `steps` steps, each of which takes apart only the
first character. -/
def decomposeWithin : (steps : Nat) → Nat → List Nat
  | 0, n => [n]
  | steps + 1, n =>
    match decomposeOnce? n with
    | some (a :: rest) => decomposeWithin steps a ++ rest
    | _ => [n]

/-- The full decomposition of a character; no chain of steps is longer than four. -/
def decompose (n : Nat) : List Nat := (syllableLetters? n).getD (decomposeWithin 4 n)

/-! ## Marks -/

/-- Can a character join the one before it? -/
def joinsBack (n : Nat) : Bool :=
  composites.any (·.2.2 = n) || (0x1161 ≤ n && n < 0x1161 + vowelCount)
    || (0x11A7 ≤ n && n < 0x11A7 + finalCount)

/-- Does a character of a decomposition count as a mark? -/
def isMark (n : Nat) : Bool := markClass n ≠ 0 || joinsBack n

/-- Forms of one mark, as ranges with both ends included. Each of them counts as a mark, though it
is never taken apart. -/
def markForms : List (Nat × Nat) :=
  [(0x3133, 0x3133), (0x3135, 0x3136), (0x313A, 0x313F), (0x314F, 0x3163), (0xFF9E, 0xFF9F),
   (0xFFA3, 0xFFA3), (0xFFA5, 0xFFA6), (0xFFAA, 0xFFAF), (0xFFC2, 0xFFC7), (0xFFCA, 0xFFCF),
   (0xFFD2, 0xFFD7), (0xFFDA, 0xFFDC)]

/-- Forms of a text that ends in marks, as ranges with both ends included, with the number of those
marks. It is not the number in the decomposition. -/
def markedForms : List (Nat × Nat × Nat) :=
  [(0xA8, 0xA8, 1), (0xAF, 0xAF, 1), (0xB4, 0xB4, 1), (0xB8, 0xB8, 1), (0x1C4, 0x1C6, 1),
   (0x2D8, 0x2DD, 1), (0x37A, 0x37A, 1), (0x384, 0x384, 1), (0x385, 0x385, 2), (0xF77, 0xF77, 2),
   (0xF79, 0xF79, 2), (0x1FBD, 0x1FBD, 1), (0x1FBF, 0x1FC0, 1), (0x1FC1, 0x1FC1, 2),
   (0x1FCD, 0x1FCF, 2), (0x1FDD, 0x1FDF, 2), (0x1FED, 0x1FEE, 2), (0x1FFD, 0x1FFE, 1),
   (0x2017, 0x2017, 1), (0x203E, 0x203E, 1), (0x309B, 0x309C, 1), (0x326E, 0x327E, 1),
   (0x3304, 0x3304, 1), (0x3307, 0x3307, 1), (0x3310, 0x3310, 1), (0x331E, 0x331E, 1),
   (0x3321, 0x3321, 1), (0x3332, 0x3332, 1), (0x333B, 0x333B, 1), (0x3340, 0x3340, 1),
   (0x334B, 0x334B, 1), (0x334E, 0x334E, 1), (0xFBA4, 0xFBA5, 1), (0xFBB0, 0xFBB1, 1),
   (0xFC5B, 0xFC5D, 1), (0xFC5E, 0xFC63, 2), (0xFC90, 0xFC90, 1), (0xFCD9, 0xFCD9, 1),
   (0xFCF2, 0xFCF4, 2), (0xFD3C, 0xFD3D, 1), (0xFE49, 0xFE4C, 1), (0xFE70, 0xFE72, 1),
   (0xFE74, 0xFE74, 1), (0xFE76, 0xFE7F, 1), (0xFE81, 0xFE8C, 1), (0xFEF5, 0xFEFA, 1),
   (0xFFE3, 0xFFE3, 1), (0x1F213, 0x1F213, 1)]

/-- The number of marks at the front of a character. -/
def leadingMarks (n : Nat) : Nat :=
  if markForms.any fun (lo, hi) ↦ lo ≤ n && n ≤ hi then 1
  else ((decompose n).takeWhile isMark).length

/-- The number of marks at the end of a character. -/
def trailingMarks (n : Nat) : Nat :=
  match markedForms.find? fun (lo, hi, _) ↦ lo ≤ n && n ≤ hi with
  | some (_, _, marks) => marks
  | none => ((decompose n).reverse.takeWhile isMark).length

/-! ## Division -/

/-- The number of marks that a segment can hold. -/
def segmentRoom : Nat := 30

/-- A segment of a text. -/
structure Segment where
  characters : List Nat
  /-- The segment is cut, and marks that go with it follow. -/
  cut : Bool

/-- Divides the rest of a text, after a segment that holds `marks` marks and, last first, the
characters `segment`. -/
def segmentsAfter : (marks : Nat) → (segment : List Nat) → List Nat → List Segment
  | _, segment, [] => [⟨segment.reverse, false⟩]
  | marks, segment, n :: rest =>
    let more := leadingMarks n
    if more = 0 then ⟨segment.reverse, false⟩ :: segmentsAfter (trailingMarks n) [n] rest
    else if segmentRoom < marks + more then
      ⟨segment.reverse, true⟩ :: segmentsAfter more [n] rest
    else segmentsAfter (marks + more) (n :: segment) rest

def segments : List Nat → List Segment
  | [] => []
  | n :: rest =>
    segmentsAfter (if leadingMarks n = 0 then trailingMarks n else leadingMarks n) [n] rest

end Flowgraph.Text
