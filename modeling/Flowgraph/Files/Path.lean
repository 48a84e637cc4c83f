/-!
# Paths

A path is a text whose elements are divided by slashes. The functions here look at the text only
and not at any file: they join paths, bring them into a normal form, and take them apart.

In the normal form there is no empty element and no dot, and two dots stand only at the front of a
relative path. The normal form of the empty path is a dot.
-/

namespace Flowgraph.Files

/-- The elements between the slashes of a text; there is always one. -/
def splitSlash : List Char → List (List Char)
  | [] => [[]]
  | c :: cs =>
    match splitSlash cs with
    | [] => [[c]]
    | part :: parts => if c = '/' then [] :: part :: parts else (c :: part) :: parts

def elements (path : String) : List String := (splitSlash path.toList).map String.ofList

/-- Does a path start at the root? -/
def isAbsolute (path : String) : Bool := path.toList.head? = some '/'

/-- Puts an element on the stack of the elements before it, latest first. Two dots take back the
latest element; where there is none they stay, unless the path starts at the root. -/
def pushElement (absolute : Bool) (stack : List String) (e : String) : List String :=
  if e = "" ∨ e = "." then stack
  else if e = ".." then
    match stack with
    | [] => if absolute then [] else [".."]
    | top :: below => if top = ".." then ".." :: top :: below else below
  else e :: stack

/-- The normal form of a path. -/
def clean (path : String) : String :=
  let absolute := isAbsolute path
  let parts := ((elements path).foldl (pushElement absolute) []).reverse
  let body := "/".intercalate parts
  if absolute then "/" ++ body else if parts.isEmpty then "." else body

/-- Joins paths, leaving out the empty ones. -/
def join (paths : List String) : String :=
  match paths.filter (· ≠ "") with
  | [] => ""
  | kept => clean ("/".intercalate kept)

def absolutePath (directory path : String) : String :=
  if isAbsolute path then clean path else join [directory, path]

/-- The part of a path up to its last slash, and the part after it. -/
def splitLast (path : String) : String × String :=
  let last := path.toList.reverse.takeWhile (· ≠ '/')
  let front := path.toList.reverse.dropWhile (· ≠ '/')
  (String.ofList front.reverse, String.ofList last.reverse)

/-- A path without slashes at its end. -/
def trimSlashes (path : String) : String :=
  String.ofList (path.toList.reverse.dropWhile (· = '/')).reverse

/-- The last element of a path; that of the root is a slash. -/
def baseName (path : String) : String :=
  if path = "" then "."
  else if trimSlashes path = "" then "/"
  else (splitLast (trimSlashes path)).2

/-- The path of the directory that a path lies in. -/
def directory (path : String) : String := clean (splitLast path).1

end Flowgraph.Files
