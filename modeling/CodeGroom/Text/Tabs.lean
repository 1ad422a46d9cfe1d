import CodeGroom.Text.Symbol

/-!
# Tab stops

How wide a text is when its tabs move to tab stops. The reader measures the part of a line before a lexeme with
`expandedWidth`; the writer follows the column of the next symbol with `advance`. For a positive tab size and a text without
carriage returns the two agree.
-/

namespace CodeGroom.Text

/-- The tab character. -/
def tab : Symbol := .char '\t'

/-- The next place on the tab grid and the width so far, after one more symbol. A line end restarts the grid but takes a place
of its own; with a tab size that is not positive a tab has no width. -/
def expandStep (tabSize : Int) (s : Nat × Nat) (x : Symbol) : Nat × Nat :=
  if x = tab then
    let gap := if 0 < tabSize then tabSize.toNat - s.1 % tabSize.toNat else 0
    (s.1 + gap, s.2 + gap)
  else if x.isOneOf "\n\r" then (0, s.2 + 1)
  else (s.1 + 1, s.2 + 1)

/-- The width of a text once its tabs are replaced by blanks up to the next tab stop. -/
def expandedWidth (tabSize : Int) (t : Text) : Nat := (t.foldl (expandStep tabSize) (0, 0)).2

/-- The column after one more symbol, columns counted from 1. -/
def advanceStep (tabSize column : Int) (x : Symbol) : Int :=
  if x = tab then column + (tabSize - (column - 1).fmod tabSize) else column + 1

/-- The column after a text that starts at `column`. -/
def advance (tabSize column : Int) (t : Text) : Int := t.foldl (advanceStep tabSize) column

end CodeGroom.Text
