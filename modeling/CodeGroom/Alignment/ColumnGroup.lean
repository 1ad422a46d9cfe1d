import CodeGroom.Strand.Columns
import CodeGroom.Trace

/-!
# Column groups

A column group collects rows whose lexemes are to share a column. A row too far from the pending ones is passed over and tried
again once they are applied; the pending rows are applied early when too many lines go by without a new one. Applying moves each
row, and the rest of its line, to the rightmost of their columns.
-/

namespace CodeGroom

/-- A strand being aligned and what was reported. -/
structure Draft where
  strand : Strand
  trace : Trace := []
deriving Repr

/-- Notes an event. -/
def Draft.note (e : Event) (d : Draft) : Draft := { d with trace := e :: d.trace }

/-- A lexeme to align, and the line count at which it was offered. -/
structure Row where
  lexeme : Option Nat
  stamp : Int
deriving DecidableEq, Repr

/-- Rows that were pending together, and whether they were applied or discarded. -/
structure Batch where
  rows : List Row
  applied : Bool
deriving DecidableEq, Repr

/-- Rows that are to share a column: those pending, with the range of their columns, and those passed over. `lineCount` counts
the lines since the group started and `lastStamp` is the latest stamp admitted. `closed` lists the batches that are done with,
and `retried` the rows passed over each time they were taken up again or discarded, the newest first. -/
structure ColumnGroup where
  span : Int := 0
  threshold : Int := 0
  tabStop : Int := 0
  alignRight : Bool := false
  pending : List Row := []
  passed : List Row := []
  lineCount : Int := 0
  lastStamp : Int := 0
  low : Int := 0
  high : Int := 0
  closed : List Batch := []
  retried : List (List Row) := []
deriving DecidableEq, Repr

namespace ColumnGroup

/-- An empty group for rows at most `span` lines apart and, when `threshold` is positive, at most that many columns. -/
def start (span threshold tabStop : Int) : ColumnGroup := { span, threshold, tabStop }

/-- Closes the batch of pending rows. -/
def closeBatch (applied : Bool) (g : ColumnGroup) : ColumnGroup :=
  { g with pending := [], low := 0, high := 0, closed := ⟨g.pending, applied⟩ :: g.closed }

/-- Takes the rows passed over out. -/
def takePassed (g : ColumnGroup) : ColumnGroup := { g with passed := [], retried := g.passed :: g.retried }

/-- Whether a column is too far from those of the pending rows. -/
def tooFar (g : ColumnGroup) (column : Int) : Bool :=
  0 < g.threshold && !g.pending.isEmpty && (g.high + g.threshold < column || column + g.threshold < g.low)

/-- Takes a row in, or passes it over. -/
def addRow (d : Draft) (g : ColumnGroup) (row : Row) : Draft × ColumnGroup :=
  let x := d.strand.lexeme row.lexeme
  let column := x.column
  if g.tooFar column then
    (d.note (.rowPassed x.text column g.low g.high g.threshold), { g with passed := g.passed ++ [row] })
  else
    let first := g.pending.isEmpty
    (d, { g with
      pending := g.pending ++ [row]
      lastStamp := max g.lastStamp row.stamp
      low := if first then column else min g.low column
      high := if first then column else max g.high column })

/-- Takes in a lexeme at the current line. -/
def add (d : Draft) (g : ColumnGroup) (i : Option Nat) : Draft × ColumnGroup := g.addRow d ⟨i, g.lineCount⟩

/-- Takes in rows in their order. -/
def addRows (d : Draft) (g : ColumnGroup) : List Row → Draft × ColumnGroup
  | [] => (d, g)
  | row :: rows =>
    let (d, g) := g.addRow d row
    addRows d g rows

/-- Forgets all rows. -/
def discard (g : ColumnGroup) : ColumnGroup := (g.closeBatch false).takePassed

/-- Forgets all rows and starts again. -/
def restart (span threshold tabStop : Int) (g : ColumnGroup) : ColumnGroup :=
  let g := g.discard
  { start span threshold tabStop with closed := g.closed, retried := g.retried }

/-- The column behind a lexeme; a sign that stands directly in front of a number ends with the number. -/
def endColumn (s : Strand) (i : Option Nat) : Int :=
  let x := s.lexeme i
  let literal := s.lexeme (i.bind s.nextOf)
  if (x.kind = .minusSign ∨ x.kind = .plusSign) ∧ (literal.kind = .integer ∨ literal.kind = .float) then
    literal.column + literal.width
  else x.column + x.width

/-- The largest of some numbers, 0 if there are none. -/
def largest : List Int → Int
  | [] => 0
  | x :: xs => xs.foldl max x

/-- The first tab stop that is not left of a column. -/
def nextTabStop (tabStop column : Int) : Int := ((column - 1 + tabStop - 1).fdiv tabStop) * tabStop + 1

/-- Moves a lexeme so that it ends in front of a column. -/
def alignEnd (s : Strand) (column : Int) (i : Option Nat) : Strand :=
  s.alignTo i ((s.lexeme i).column + column - endColumn s i)

/-- The column that some rows are moved to: the largest that one of them has, or the next tab stop. -/
def targetColumn (tabStop : Int) (s : Strand) (is : List (Option Nat)) : Int :=
  let column := largest (is.map fun i => (s.lexeme i).column)
  if 0 < tabStop then nextTabStop tabStop column else column

/-- Aligns the pending rows, if there are at least two, and empties the list of them. -/
def apply (d : Draft) (g : ColumnGroup) : Draft × ColumnGroup :=
  let rows := g.pending
  let is := rows.map (·.lexeme)
  let g := g.closeBatch true
  if rows.length < 2 then (d, g)
  else if g.alignRight then
    let column := largest (is.map (endColumn d.strand))
    let d := { d with strand := is.foldl (fun s i => alignEnd s column i) d.strand }
    (d.note (.rowsAlignedRight is column), g)
  else
    let column := targetColumn g.tabStop d.strand is
    let d := { d with strand := is.foldl (fun s i => s.alignTo i column) d.strand }
    (d.note (.rowsAligned is column), g)

/-- Whether more lines have gone by since the last row than the span allows. -/
def overdue (g : ColumnGroup) : Bool := !g.pending.isEmpty && g.lastStamp + g.span < g.lineCount

/-- Reports that the span is exceeded and applies the pending rows. -/
def applyEarly (d : Draft) (g : ColumnGroup) : Draft × ColumnGroup :=
  g.apply (d.note (.spanExceeded g.span g.pending.length))

/-- Offers the rows passed over again, and applies them early if they are overdue, in at most so many rounds. Each round admits at
least the first of the rows. -/
def retakeFor : Nat → Draft → ColumnGroup → Draft × ColumnGroup
  | 0, d, g => (d, g)
  | n + 1, d, g =>
    if g.passed = [] then (d, g)
    else
      let (d, g) := addRows d g.takePassed g.passed
      if g.overdue then
        let (d, g) := g.applyEarly d
        retakeFor n d g
      else (d, g)

/-- Offers the rows passed over again, as long as the pending ones are overdue. -/
def retake (d : Draft) (g : ColumnGroup) : Draft × ColumnGroup := retakeFor g.passed.length d g

/-- Counts lines that go by. -/
def newLines (d : Draft) (g : ColumnGroup) (count : Int) : Draft × ColumnGroup :=
  if g.pending.isEmpty then (d, g)
  else
    let g := { g with lineCount := g.lineCount + count }
    if g.overdue then
      let (d, g) := g.applyEarly d
      g.retake d
    else (d, g)

/-- Applies the rows passed over, set by set, in at most so many rounds. -/
def finishFor : Nat → Draft → ColumnGroup → Draft × ColumnGroup
  | 0, d, g => (d, g)
  | n + 1, d, g =>
    if g.passed = [] then (d, g)
    else
      let (d, g) := g.retake d
      let (d, g) := g.apply d
      finishFor n d g

/-- Applies all rows: the pending ones, then those passed over. -/
def finish (d : Draft) (g : ColumnGroup) : Draft × ColumnGroup :=
  let (d, g) := g.apply d
  finishFor g.passed.length d g

end ColumnGroup

end CodeGroom
