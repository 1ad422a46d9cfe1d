import CodeGroom.Lexeme.Kind
import CodeGroom.Text.Quoted

/-!
# Lexemes

A lexeme is one unit of source text with what the passes need to know about it: its place in the source, the column where it is
to be written, its bracket depth, and a few marks.
-/

namespace CodeGroom

/-- Marks on a lexeme: it belongs to a directive, it starts a statement, it stands in a condition's parentheses, it stands in
the parentheses of a call. -/
structure Marks where
  inDirective : Bool := false
  startsStatement : Bool := false
  inCondition : Bool := false
  inCall : Bool := false
deriving DecidableEq, Repr, Inhabited

/-- The marks that a lexeme inserted beside another one takes over: all but the start of a statement. -/
def Marks.inherited (m : Marks) : Marks := { m with startsStatement := false }

/-- One unit of source text. `line`, `startColumn` and `endColumn` say where it was read and `column` where it is to be written;
`depth` counts all open brackets, `braceDepth` the braces, `branchDepth` the conditional directives around it. `owner` is the
kind of the lexeme that a bracket belongs to, `breaks` the number of line feeds of a line break, and `gap` the source text
between the lexeme before it and this one. -/
structure Lexeme where
  kind : Kind
  text : Text
  line : Int := 0
  startColumn : Int := 0
  endColumn : Int := 0
  column : Int := 0
  depth : Int := 0
  braceDepth : Int := 0
  branchDepth : Int := 0
  owner : Kind := .nothing
  marks : Marks := {}
  breaks : Int := 0
  gap : Text := []
deriving DecidableEq, Repr, Inhabited

namespace Lexeme

/-- The lexeme that is not there. -/
def absent : Lexeme := { kind := .nothing, text := [] }

/-- Whether the lexeme is a line break. -/
def isNewline (x : Lexeme) : Bool := x.kind = .newline

/-- Whether the lexeme is a comment. -/
def isComment (x : Lexeme) : Bool := x.kind = .comment

/-- Whether the lexeme belongs to a directive. -/
def inDirective (x : Lexeme) : Bool := x.marks.inDirective

/-- The number of symbols of the lexeme. -/
def width (x : Lexeme) : Nat := x.text.length

/-- The lexeme moved by `n` columns, in the source and in what is to be written. -/
def shift (n : Int) (x : Lexeme) : Lexeme :=
  { x with column := x.column + n, startColumn := x.startColumn + n, endColumn := x.endColumn + n }

/-- The lexeme in a listing. -/
def describe (x : Lexeme) : String :=
  s!"Chunk({x.kind.label}, {x.text.quoted}, line={x.line}, col={x.column}, level={x.depth})"

end Lexeme

end CodeGroom
