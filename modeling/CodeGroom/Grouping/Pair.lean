import CodeGroom.Strand.Columns
import CodeGroom.Trace

/-!
# Inserting parentheses

A pair of parentheses is put around the code strictly between two lexemes: the opening one directly in front of the first code
there, the closing one directly behind the last. Both take place and marks from the code that they touch, the rest of each line
moves right by one column, and everything inside gets one level deeper.
-/

namespace CodeGroom

/-- A region of code between two lexemes, and in how many other regions it lies. -/
structure Region where
  first : Option Nat
  last : Option Nat
  nest : Nat := 0
deriving DecidableEq, Repr

/-- A pair of parentheses that was inserted, and the region that it was inserted for. -/
structure Insertion where
  opening : Nat
  closing : Nat
  region : Region
deriving DecidableEq, Repr

/-- A strand that parentheses are inserted into, the pairs inserted so far (newest first), and what was reported. -/
structure Grouping where
  strand : Strand
  pairs : List Insertion := []
  trace : Trace := []
deriving Repr

namespace Grouping

/-- The number of pairs inserted. -/
def inserted (g : Grouping) : Nat := g.pairs.length

/-- Notes an event. -/
def note (e : Event) (g : Grouping) : Grouping := { g with trace := e :: g.trace }

/-- The opening parenthesis to put in front of a lexeme: it takes the place of that lexeme. -/
def openingBefore (x : Lexeme) : Lexeme :=
  { kind := .opening .paren, text := [.char '('], line := x.line, startColumn := x.startColumn
    endColumn := x.startColumn + 1, column := x.column, depth := x.depth, braceDepth := x.braceDepth
    branchDepth := x.branchDepth, marks := x.marks.inherited }

/-- The closing parenthesis to put behind a lexeme: it starts where that lexeme ends. -/
def closingAfter (x : Lexeme) : Lexeme :=
  { kind := .closing .paren, text := [.char ')'], line := x.line, startColumn := x.endColumn
    endColumn := x.endColumn + 1, column := x.column + x.width, depth := x.depth, braceDepth := x.braceDepth
    branchDepth := x.branchDepth, marks := x.marks.inherited }

/-- A lexeme one level deeper. -/
def deepen (x : Lexeme) : Lexeme := { x with depth := x.depth + 1 }

/-- Puts the code between two lexemes of a region in parentheses, unless the second follows directly on the first. -/
def enclose (region : Region) (first last : Option Nat) (g : Grouping) : Grouping :=
  let inner := g.strand.nextCode first
  if inner = last then g
  else
    let s := g.strand
    let x := s.lexeme inner
    let event := Event.pairInserted x.line (s.lexeme first).text (s.lexeme last).text
    let left := s.size
    let s := (s.insertBefore inner (openingBefore x)).shiftLine inner 1
    let innerLast := s.prev .layout .sameSide last
    let right := s.size
    let s := s.insertAfter innerLast (closingAfter (s.lexeme innerLast))
    let s := s.shiftLine (s.nextOf right) 1
    let s := s.modifyAll (s.between (some left) (some right)) deepen
    { strand := s, pairs := ⟨left, right, region⟩ :: g.pairs, trace := event :: g.trace }

end Grouping

end CodeGroom
