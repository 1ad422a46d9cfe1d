import CodeGroom.Strand.Walk

/-!
# Moving lexemes along their line

An insertion pushes the rest of its line to the right, line break included; alignment moves a lexeme and the rest of its line to
a column and leaves the line break where it is.
-/

namespace CodeGroom.Strand

/-- Whether lexeme `i` is a line break. -/
def isNewline (s : Strand) (i : Nat) : Bool := (s.lexeme (some i)).isNewline

/-- Lexeme `i` and the rest of its line, without the line break. -/
def restOfLine (s : Strand) (i : Option Nat) : List Nat := (s.onward i).takeWhile (!s.isNewline ·)

/-- Lexeme `i` and the rest of its line with the line break that ends it. -/
def restWithBreak (s : Strand) (i : Option Nat) : List Nat :=
  s.restOfLine i ++ ((s.onward i).dropWhile (!s.isNewline ·)).take 1

/-- Shifts lexeme `i` and the rest of its line by `n` columns. -/
def shiftLine (s : Strand) (i : Option Nat) (n : Int) : Strand := s.modifyAll (s.restWithBreak i) (·.shift n)

/-- Moves lexeme `i` to a column, and the rest of its line along with it. -/
def alignTo (s : Strand) (i : Option Nat) (column : Int) : Strand :=
  let delta := column - (s.lexeme i).column
  if delta = 0 then s else s.modifyAll (s.restOfLine i) fun x => { x with column := x.column + delta }

end CodeGroom.Strand
