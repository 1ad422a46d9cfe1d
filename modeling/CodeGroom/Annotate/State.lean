import CodeGroom.Lexeme.Basic
import CodeGroom.Text.Tabs
import CodeGroom.Trace

/-!
# Reading tokens into lexemes: the state

While tokens are read one after another, the reader knows the lexemes so far, the brackets that are open, the question marks
that wait for their colon, and the conditional directives around the current place. All else (the code before, whether a
statement starts here) can be read off the lexemes.
-/

namespace CodeGroom

/-- A source text with its language and the distance of its tab stops. -/
structure Source where
  text : Text
  tabSize : Int := 8
  language : String := "c"
deriving DecidableEq, Repr

namespace Source

/-- The line of a place, counted from 1. -/
def lineAt (src : Source) (pos : Nat) : Nat := 1 + (src.text.take pos).count Text.lineFeed

/-- The part of its line in front of a place. -/
def lineBefore (src : Source) (pos : Nat) : Text := ((src.text.take pos).reverse.takeWhile (· ≠ Text.lineFeed)).reverse

/-- The column of a place, counted from 1, with tabs expanded. -/
def columnAt (src : Source) (pos : Nat) : Nat := Text.expandedWidth src.tabSize (src.lineBefore pos) + 1

end Source

/-- An open bracket: the lexeme that opened it, its shape and what it belongs to. -/
structure Opener where
  id : Nat
  bracket : Bracket
  owner : Kind
deriving DecidableEq, Repr

/-- A conditional directive that is open: the brackets open at its start, and those open at the end of its first branch once a
second branch has begun. -/
structure Branch where
  saved : List Opener
  firstBranch : Option (List Opener) := none
deriving DecidableEq, Repr

/-- What is known while tokens are read. Lists have their newest element first: `lexemes` those read so far, `opened` the open
brackets, `questions` the depths of the question marks that wait for a colon, `branches` the open conditional directives.
`covered` is the place behind the last lexeme, and tokens before `resume` have been read already. -/
structure Annotator where
  lexemes : List Lexeme := []
  opened : List Opener := []
  questions : List Nat := []
  branches : List Branch := []
  branchDepth : Nat := 0
  covered : Nat := 0
  resume : Nat := 0
  trace : Trace := []
deriving DecidableEq, Repr

namespace Annotator

/-- The number of open brackets. -/
def depth (a : Annotator) : Nat := a.opened.length

/-- The number of open braces. -/
def braceDepth (a : Annotator) : Nat := a.opened.countP (·.bracket = .brace)

/-- The shape of the innermost open bracket. -/
def innermost? (a : Annotator) : Option Bracket := a.opened.head?.map (·.bracket)

/-- The code lexemes so far, the newest first. -/
def code (a : Annotator) : List Lexeme := a.lexemes.filter (·.kind.isCode)

/-- The last code lexeme. -/
def lastCode (a : Annotator) : Lexeme := (a.lexemes.find? (·.kind.isCode)).getD .absent

/-- The kind of the code lexeme before the last one. -/
def codeBeforeLast (a : Annotator) : Kind :=
  (((a.lexemes.dropWhile (!·.kind.isCode)).drop 1).find? (·.kind.isCode)).getD .absent |>.kind

/-- Whether the next code lexeme starts a statement. -/
def startsStatement (a : Annotator) : Bool := (a.lexemes.find? (·.kind.isCode)).all (·.kind.endsStatement)

/-- Whether there is code on the current line. -/
def lineHasCode (a : Annotator) : Bool := (a.lexemes.takeWhile (!·.isNewline)).any (·.kind.isCode)

/-- The marks of a lexeme read now. -/
def marks (a : Annotator) (kind : Kind) (directive : Bool) : Marks where
  inDirective := directive
  startsStatement := kind.isCode && a.startsStatement
  inCondition := a.opened.any (·.bracket = .condition)
  inCall := a.opened.any fun o => o.bracket = .call && o.owner = .callName

/-- Adds a lexeme read at `start`. -/
def add (src : Source) (kind : Kind) (start : Nat) (text : Text) (owner : Kind) (directive : Bool) (a : Annotator) :
    Annotator :=
  let column := src.columnAt start
  let x : Lexeme :=
    { kind, text, line := src.lineAt start, startColumn := column, endColumn := column + text.length, column
      depth := a.depth, braceDepth := a.braceDepth, branchDepth := a.branchDepth, owner
      marks := a.marks kind directive, breaks := if kind = .newline then 1 else 0
      gap := src.text.slice a.covered start }
  { a with lexemes := x :: a.lexemes, covered := start + text.length }

/-- Adds a lexeme that belongs to no other one and to no directive. -/
def addPlain (src : Source) (kind : Kind) (start : Nat) (text : Text) (a : Annotator) : Annotator :=
  a.add src kind start text .nothing false

/-- Notes an event. -/
def note (e : Event) (a : Annotator) : Annotator := { a with trace := e :: a.trace }

/-- Changes the newest code lexeme of a list. -/
def changeLastCode (f : Lexeme → Lexeme) : List Lexeme → List Lexeme
  | [] => []
  | x :: xs => if x.kind.isCode then f x :: xs else x :: changeLastCode f xs

/-- Gives the last code lexeme another kind. -/
def retype (kind : Kind) (a : Annotator) : Annotator :=
  { a with lexemes := changeLastCode (fun x => { x with kind }) a.lexemes }

/-- Reads a line feed. Directly behind another one outside directives it only lengthens that line break. -/
def newline (src : Source) (start : Nat) (a : Annotator) : Annotator :=
  match a.lexemes with
  | x :: xs =>
    if x.isNewline && !x.inDirective && start = a.covered then
      { a with lexemes := { x with breaks := x.breaks + 1 } :: xs, covered := start + 1 }
    else a.addPlain src .newline start [Text.lineFeed]
  | [] => a.addPlain src .newline start [Text.lineFeed]

end Annotator

end CodeGroom
