import CodeGroom.Text.Quoted

/-!
# Traces

The decisions that reading and the passes report, each as an event, and the line that a verbose run writes for it. A trace lists
the newest event first.
-/

namespace CodeGroom

/-- Where a lexeme stands, for a report. -/
structure Sighting where
  text : Text
  line : Int
  column : Int
deriving DecidableEq, Repr

/-- A decision taken on the way. -/
inductive Event where
  | directiveRead (word : Text) (line : Nat) (depth : Nat)
  | unmatchedCloser (text : Text) (line : Nat)
  | unclosedOpeners (count : Nat) (text : Text) (line : Nat)
  | sourceRead (count : Nat) (language : String)
  | groupingOff (language : String)
  | whileSkipped (text : Text) (line : Int)
  | scanStarted (nest : Nat) (first last : Sighting)
  | directiveMet (text : Text) (line : Int)
  | pairInserted (line : Int) (first last : Text)
  | pairsCounted (count : Nat)
  | rowPassed (text : Text) (column low high threshold : Int)
  | spanExceeded (span : Int) (rows : Nat)
  | rowsAlignedRight (rows : List (Option Nat)) (column : Int)
  | rowsAligned (rows : List (Option Nat)) (column : Int)
  | alignmentStarted (span threshold : Int)
  | blockLeft (braceDepth line : Int) (count : Nat)
  | sourceEnded (count : Nat)
  | runExtended (name : Text) (line : Int) (count : Nat)
  | runEnded (name : Text) (line : Int) (count : Nat) (old : Text)
  | runStarted (name : Text) (line : Int)
deriving DecidableEq, Repr

/-- Events, the newest first. -/
abbrev Trace := List Event

/-- A text as it stands in a message; an undecodable byte is escaped. -/
def Text.plain (t : Text) : String :=
  String.join (t.map fun
    | .char c => String.singleton c
    | .byte b => Text.escapeCode (0xdc00 + b.toNat))

namespace Sighting

/-- A lexeme and its place, in a message. -/
def describe (s : Sighting) : String := s!"{s.text.quoted} at line {s.line} col {s.column}"

end Sighting

namespace Event

/-- The line of a verbose run that reports the event. -/
def message : Event → String
  | directiveRead word line depth => s!"lexer: directive #{word.plain} at line {line}, pp level now {depth}"
  | unmatchedCloser text line => s!"lexer: unmatched {text.quoted} at line {line}"
  | unclosedOpeners count text line => s!"lexer: {count} unclosed bracket(s) before {text.quoted} at line {line}"
  | sourceRead count language => s!"tidyc: {count} chunks, language {language}"
  | groupingOff language => s!"parens: parenthesis insertion disabled for {language}"
  | whileSkipped text line => s!"parens: skip {text.quoted} in while condition at line {line}"
  | scanStarted nest first last => s!"parens: nest {nest}: scanning {first.describe} to {last.describe}"
  | directiveMet text line => s!"parens: bail on preprocessor {text.quoted} at line {line}"
  | pairInserted line first last => s!"parens: line {line}: parenthesize between {first.quoted} and {last.quoted}"
  | pairsCounted count => s!"parens: inserted {count} parenthesis pair(s)"
  | rowPassed text column low high threshold =>
    s!"align_stack: skip {text.quoted}: column {column} outside {low}..{high} (thresh {threshold})"
  | spanExceeded span rows => s!"align_stack: span {span} exceeded, applying {rows} row(s)"
  | rowsAlignedRight rows column => s!"align_stack: right aligned {rows.length} row(s) to end column {column}"
  | rowsAligned rows column => s!"align_stack: aligned {rows.length} row(s) to column {column}"
  | alignmentStarted span threshold => s!"align_calls: aligning same-function calls, span {span}, thresh {threshold}"
  | blockLeft braceDepth line count =>
    s!"align_calls: left brace level {braceDepth} at line {line}, ending group of {count} call(s)"
  | sourceEnded count => s!"align_calls: end of file, ending group of {count} call(s)"
  | runExtended name line count => s!"align_calls: add {name.plain} at line {line} to group ({count})"
  | runEnded name line count old =>
    s!"align_calls: {name.plain} at line {line} ends group of {count} call(s) to {old.plain}"
  | runStarted name line => s!"align_calls: start group with {name.plain} at line {line}"

end Event

end CodeGroom
