/-!
# Letter case and blanks

Keywords are compared without regard to case. Two rules are in use: comparing the lower-case forms,
and comparing under case folding. Both agree with ASCII on ASCII letters and differ on the few other
letters whose case forms meet it: the lower case of a dotted capital I is i and that of the Kelvin
sign is k, while folding joins the long s with s and the Kelvin sign with k.

A keyword is compared with other texts by their bytes too, so the lower case of a letter outside
ASCII counts where it takes another number of bytes than the letter.
-/

namespace Flowgraph.Text

/-- The letters outside ASCII whose lower case takes another number of bytes, with that lower
case. -/
def unevenLetters : List (Nat × Nat) :=
  [(0x130, 0x69), (0x23A, 0x2C65), (0x23E, 0x2C66), (0x1E9E, 0xDF), (0x2126, 0x3C9), (0x212A, 0x6B),
   (0x212B, 0xE5), (0x2C62, 0x26B), (0x2C64, 0x27D), (0x2C6D, 0x251), (0x2C6E, 0x271),
   (0x2C6F, 0x250), (0x2C70, 0x252), (0x2C7E, 0x23F), (0x2C7F, 0x240), (0xA78D, 0x265),
   (0xA7AA, 0x266), (0xA7AB, 0x25C), (0xA7AC, 0x261), (0xA7AD, 0x26C), (0xA7AE, 0x26A),
   (0xA7B0, 0x29E), (0xA7B1, 0x287), (0xA7B2, 0x29D), (0xA7C5, 0x282), (0xA7CB, 0x264),
   (0xA7DC, 0x19B)]

/-- The lower case of a character, if it has another number of bytes or is an ASCII letter; any
other character stays as it is. -/
def lowerChar (c : Char) : Char :=
  match unevenLetters.lookup c.toNat with
  | some n => Char.ofNat n
  | none => c.toLower

/-- The lower case of a text, as far as it concerns ASCII and the number of bytes. -/
def lower (s : String) : String := s.map lowerChar

/-- The case folding of a character, as far as it concerns ASCII. -/
def foldChar (c : Char) : Char :=
  if c = '\u017F' then 's' else if c = '\u212A' then 'k' else c.toLower

/-- Is a text the ASCII keyword `keyword` up to case? -/
def isKeyword (keyword s : String) : Bool := keyword.map foldChar == s.map foldChar

/-- Is the character white space? -/
def isBlank (c : Char) : Bool :=
  let n := c.toNat
  (0x09 ≤ n && n ≤ 0x0D) || n = 0x20 || n = 0x85 || n = 0xA0 || n = 0x1680
    || (0x2000 ≤ n && n ≤ 0x200A) || n = 0x2028 || n = 0x2029 || n = 0x202F || n = 0x205F
    || n = 0x3000

/-- The text without white space at its ends. -/
def trim (s : String) : String :=
  String.ofList ((s.toList.dropWhile isBlank).reverse.dropWhile isBlank).reverse

end Flowgraph.Text
