import CodeGroom.Text.Symbol

/-!
# Lines of a text

Three ways to cut a text into lines: at line feeds, dropping them (for source code, where `unlines` is the way back), and
keeping each line's end, either at line feeds and carriage returns only (how a file is read for comparison) or at every line
boundary (how the new version of the file is cut).
-/

namespace CodeGroom.Text

/-- The parts of a text between its line feeds; one more than there are line feeds. -/
def lines : Text → List Text
  | [] => [[]]
  | x :: rest =>
    if x = lineFeed then [] :: lines rest
    else match lines rest with
      | [] => [[x]]
      | l :: ls => (x :: l) :: ls

/-- The text whose lines are given: one line feed between two neighbours. -/
def unlines (ls : List Text) : Text := List.intercalate [lineFeed] ls

/-- A text cut behind each symbol that ends a line, ends included. A carriage return directly before a line feed ends no line
of its own. -/
def cutAfter (ends : Symbol → Bool) : Text → List Text
  | [] => []
  | x :: rest =>
    if ends x && !(x = .char '\r' && rest.head? = some lineFeed) then [x] :: cutAfter ends rest
    else match cutAfter ends rest with
      | [] => [[x]]
      | l :: ls => (x :: l) :: ls

/-- A line of a file ends with a line feed, with a carriage return, or with both. -/
def endsFileLine (x : Symbol) : Bool := x.isOneOf "\n\r"

/-- Every character at which a line may be broken: also the vertical separators, the file, group and record separators, the
next-line control and the two Unicode separators. -/
def endsAnyLine (x : Symbol) : Bool := x.isOneOf "\n\r\x0b\x0c\x1c\x1d\x1e\u0085\u2028\u2029"

/-- The lines of a file, ends included. -/
def fileLines (t : Text) : List Text := cutAfter endsFileLine t

/-- The lines of a text at every line boundary, ends included. -/
def allLines (t : Text) : List Text := cutAfter endsAnyLine t

end CodeGroom.Text
