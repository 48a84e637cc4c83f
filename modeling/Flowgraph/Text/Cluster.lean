import Flowgraph.Text.ClusterClass

/-!
# Clusters

A text is divided into clusters, each of which a reader takes for one character: a letter with its
marks, a Korean syllable spelled by letters, a flag, or pictographs tied by joiners. Between any two
characters the text is divided, unless a rule ties them.
-/

namespace Flowgraph.Text

/-- What the division depends on in a character. -/
inductive ClusterClass where
  | returns
  | feeds
  | control
  | attaching
  | joiner
  | flagLetter
  | leading
  | spacing
  | leadConsonant
  | vowel
  | finalConsonant
  /-- A syllable without a final consonant. -/
  | openSyllable
  /-- A syllable with a final consonant. -/
  | closedSyllable
  | pictograph
  | plain
deriving DecidableEq

def clusterClass (c : Char) : ClusterClass :=
  let n := c.toNat
  let within (ranges : List (Nat × Nat)) : Bool := ranges.any fun (lo, hi) ↦ lo ≤ n && n ≤ hi
  if n = 13 then .returns
  else if n = 10 then .feeds
  else if n < 0x20 then .control
  else if n < 0x7F then .plain
  else if n = 0x200D then .joiner
  else if within controlRanges then .control
  else if within attachingRanges then .attaching
  else if within [(0x1F1E6, 0x1F1FF)] then .flagLetter
  else if within leadingRanges then .leading
  else if within spacingRanges then .spacing
  else if within [(0x1100, 0x115F), (0xA960, 0xA97C)] then .leadConsonant
  else if within [(0x1160, 0x11A7), (0xD7B0, 0xD7C6)] then .vowel
  else if within [(0x11A8, 0x11FF), (0xD7CB, 0xD7FB)] then .finalConsonant
  else if within [(0xAC00, 0xD7A3)] then
    if (n - 0xAC00) % 28 = 0 then .openSyllable else .closedSyllable
  else if within pictographRanges then .pictograph
  else .plain

/-- What is known about the text before a place: the last class, whether an odd number of letters
of flags comes last, and whether a pictograph with attached marks, or that and a joiner, comes
last. -/
structure ClusterContext where
  last : ClusterClass
  oddFlag : Bool
  marked : Bool
  joined : Bool

/-- The context after a first character. -/
def ClusterContext.start (k : ClusterClass) : ClusterContext :=
  ⟨k, k = .flagLetter, k = .pictograph, false⟩

/-- The context after one more character. -/
def ClusterContext.next (x : ClusterContext) (k : ClusterClass) : ClusterContext where
  last := k
  oddFlag := k = .flagLetter && !x.oddFlag
  marked := k = .pictograph || (k = .attaching && x.marked)
  joined := k = .joiner && x.marked

/-- Does a rule tie the next character to the text before it? -/
def ClusterContext.ties (x : ClusterContext) (k : ClusterClass) : Bool :=
  match x.last, k with
  | .returns, .feeds => true
  | .returns, _ | .feeds, _ | .control, _ => false
  | _, .returns | _, .feeds | _, .control => false
  | .leadConsonant, .leadConsonant | .leadConsonant, .vowel | .leadConsonant, .openSyllable
  | .leadConsonant, .closedSyllable => true
  | .openSyllable, .vowel | .openSyllable, .finalConsonant | .vowel, .vowel
  | .vowel, .finalConsonant => true
  | .closedSyllable, .finalConsonant | .finalConsonant, .finalConsonant => true
  | _, .attaching | _, .joiner | _, .spacing => true
  | .leading, _ => true
  | _, .pictograph => x.joined
  | _, .flagLetter => x.oddFlag
  | _, _ => false

/-- Divides the rest of a text, with the cluster so far in reverse. -/
def clustersAfter : ClusterContext → (cluster : List Char) → List Char → List (List Char)
  | _, cluster, [] => [cluster.reverse]
  | x, cluster, c :: rest =>
    let k := clusterClass c
    if x.ties k then clustersAfter (x.next k) (c :: cluster) rest
    else cluster.reverse :: clustersAfter (.start k) [c] rest

def clusters : List Char → List (List Char)
  | [] => []
  | c :: rest => clustersAfter (.start (clusterClass c)) [c] rest

end Flowgraph.Text
