import CodeGroom.Alignment.ColumnGroup
import CodeGroom.Fault

/-!
# Names from outside

Names of lexemes that come from outside may name nothing. A number counts lexemes from the oldest one, a negative number below -1
from the newest one back, and -1 stands for no lexeme; a splice or a move without a lexeme needs at least one to exist.
-/

namespace CodeGroom

namespace Strand

/-- The lexeme that a number names. -/
def resolve (s : Strand) (i : Int) : Except Fault (Option Nat) :=
  if i = -1 then .ok none
  else if 0 ≤ i ∧ i < s.size then .ok (some i.toNat)
  else if i < -1 ∧ 0 ≤ s.size + i then .ok (some (s.size + i).toNat)
  else .error .noSuchLexeme

/-- The lexeme that a number names, as the place of a splice or a move. -/
def resolvePlace (s : Strand) (i : Int) : Except Fault (Option Nat) :=
  if s.size = 0 then .error .noSuchLexeme else s.resolve i

end Strand

namespace ColumnGroup

/-- Whether applying the pending rows would move lexemes that do not exist. -/
def lacksLexemes (d : Draft) (g : ColumnGroup) : Bool := d.strand.size = 0 && 2 ≤ g.pending.length

/-- Counts lines, unless that applies rows to a strand without lexemes. -/
def newLinesChecked (d : Draft) (g : ColumnGroup) (count : Int) : Except Fault (Draft × ColumnGroup) :=
  if g.lacksLexemes d && { g with lineCount := g.lineCount + count }.overdue then .error .noSuchLexeme
  else .ok (g.newLines d count)

/-- Applies all rows, unless the strand has no lexemes. -/
def finishChecked (d : Draft) (g : ColumnGroup) : Except Fault (Draft × ColumnGroup) :=
  if g.lacksLexemes d then .error .noSuchLexeme else .ok (g.finish d)

end ColumnGroup

end CodeGroom
