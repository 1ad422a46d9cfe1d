import CodeGroom.Text.Symbol

/-!
# File paths

A path is taken apart at its slashes. Empty parts and single dots say nothing and are left out; the language of a file follows
from the end of its name.
-/

namespace CodeGroom

/-- A path: how many slashes make its root (none, one or two), and its parts. -/
structure FilePath where
  root : Nat := 0
  parts : List Text := []
deriving DecidableEq, Repr

namespace FilePath

/-- The slash between the parts of a path. -/
def slash : Symbol := .char '/'

/-- A text cut at its slashes. -/
def cut : Text → List Text
  | [] => [[]]
  | x :: rest =>
    if x = slash then [] :: cut rest
    else match cut rest with
      | [] => [[x]]
      | p :: ps => (x :: p) :: ps

/-- The path that a text names. Exactly two slashes at its start are a root of their own. -/
def ofText (t : Text) : FilePath :=
  let slashes := (t.takeWhile (· = slash)).length
  { root := if slashes = 0 then 0 else if slashes = 2 then 2 else 1
    parts := (cut t).filter fun p => p ≠ [] && p ≠ [.char '.'] }

/-- The text of a path; the path without root and parts is a dot. -/
def toText (p : FilePath) : Text :=
  if p.root = 0 ∧ p.parts = [] then [.char '.'] else List.replicate p.root slash ++ List.intercalate [slash] p.parts

/-- Whether there is a null character in a path; no file has such a name. -/
def hasNull (p : FilePath) : Bool := p.parts.any (·.contains (.char '\x00'))

/-- The last part of a path. -/
def name (p : FilePath) : Text := p.parts.getLast?.getD []

/-- The end of the name from its last dot on; nothing when that is the first or the last symbol of the name. -/
def suffix (p : FilePath) : Text :=
  let backward := p.name.reverse
  let ending := backward.takeWhile (· ≠ .char '.')
  let stem := (backward.dropWhile (· ≠ .char '.')).drop 1
  if ending = [] ∨ stem = [] then [] else .char '.' :: ending.reverse

/-- A symbol in lower case, as far as the Latin alphabet goes; no suffix in the table has any other letter. -/
def lower : Symbol → Symbol
  | .char c => .char c.toLower
  | .byte b => .byte b

/-- The languages by the suffix of a file. -/
def suffixLanguages : List (Text × String) :=
  [(".c", "c"), (".h", "c"), (".cpp", "cpp"), (".cc", "cpp"), (".cxx", "cpp"), (".c++", "cpp"), (".hpp", "cpp"), (".hh", "cpp"),
    (".hxx", "cpp"), (".cs", "cs"), (".java", "java"), (".d", "d"), (".m", "oc"), (".mm", "oc"), (".vala", "vala"), (".p", "pawn"),
    (".pawn", "pawn"), (".sma", "pawn")].map fun (s, l) => (Text.ofString s, l)

/-- The language of a file; C where the suffix says nothing. -/
def language (p : FilePath) : String := (suffixLanguages.lookup (p.suffix.map lower)).getD "c"

end FilePath

end CodeGroom
