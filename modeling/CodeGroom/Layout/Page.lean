import CodeGroom.Fault
import CodeGroom.Text.Lines
import CodeGroom.Text.Tabs

/-!
# Pages

A page is written from left to right and line by line; every text is put at a column. The gap in front of a text is the white
space it had in the source when that ends at the right column, and else tabs and blanks that do. A text that comes too late for
its column follows directly.
-/

namespace CodeGroom

/-- Lines written so far, the line being written, and the column of its next symbol, counted from 1. -/
structure Page where
  finished : List Text := []
  current : Text := []
  column : Int := 1
deriving DecidableEq, Repr

/-- How a page is ruled: the distance of its tab stops, and whether a line may be indented with tabs. -/
structure Ruling where
  tabSize : Int := 8
  indentWithTabs : Bool := false
deriving DecidableEq, Repr

namespace Page

/-- The lines of the page. -/
def lines (p : Page) : List Text := p.finished ++ [p.current]

/-- The column behind a text written at the current column. A tab cannot move on a ruling without tab stops. -/
def columnAfter (r : Ruling) (p : Page) (t : Text) : Except Fault Int :=
  if r.tabSize = 0 ∧ t.contains Text.tab then .error .moduloByZero else .ok (Text.advance r.tabSize p.column t)

/-- Whether the gap at the current place is an indentation to be made with tabs. -/
def indentsWithTabs (r : Ruling) (p : Page) : Bool := p.column = 1 && r.indentWithTabs

/-- Fills the line up to a column, with blanks or, in an indentation with tabs, as far as possible with tabs. -/
def fill (r : Ruling) (p : Page) (column : Int) : Except Fault Page :=
  let gap := column - p.column
  if p.indentsWithTabs r then
    if r.tabSize = 0 then .error .divisionByZero
    else
      let blanks := Text.copies (gap.fdiv r.tabSize) Text.tab ++ Text.copies (gap.fmod r.tabSize) (.char ' ')
      .ok { p with current := p.current ++ blanks, column }
  else .ok { p with current := p.current ++ Text.copies gap (.char ' '), column }

/-- Whether a gap from the source may be kept: it ends at the column, and is no indentation to be made with tabs. -/
def keepsGap (r : Ruling) (p : Page) (column : Int) (gap : Text) : Except Fault Bool :=
  if gap = [] then .ok false
  else do
    let stop ← p.columnAfter r gap
    return stop = column && !p.indentsWithTabs r

/-- Writes the gap in front of a text that is to stand at a column. -/
def writeGap (r : Ruling) (p : Page) (column : Int) (gap : Text) : Except Fault Page := do
  if ← p.keepsGap r column gap then return { p with current := p.current ++ gap, column }
  else if p.column < column then p.fill r column
  else return p

/-- Writes a text at a column, with the gap it had in the source. -/
def write (r : Ruling) (p : Page) (column : Int) (t gap : Text) : Except Fault Page := do
  let p ← p.writeGap r column gap
  let stop ← p.columnAfter r t
  return { p with current := p.current ++ t, column := stop }

/-- Ends the line, behind some trailing text, and leaves `count - 1` lines empty. A count that is not positive only goes back to
the first column. -/
def newLine (p : Page) (count : Int) (trailing : Text) : Page :=
  let current := p.current ++ trailing
  match count.toNat with
  | 0 => { p with current, column := 1 }
  | n + 1 => { finished := p.finished ++ current :: List.replicate n [], current := [], column := 1 }

end Page

end CodeGroom
