import CodeGroom.Alignment.Calls
import CodeGroom.Annotate.Reading
import CodeGroom.Grouping.Passes
import CodeGroom.Layout.Render
import CodeGroom.Text.Encoding

/-!
# Formatting a file

From bytes to bytes: the source is read, the passes that the style asks for are run, and the result is written with the line
ends that the file has. The passes neither add nor remove line breaks, so the ends are put back line by line.
-/

namespace CodeGroom

/-- Cuts a text into tokens. -/
abbrev Lexer := Text → List Token

namespace Format

/-- For every line but the last, whether it ends with a carriage return. -/
def carriageReturns (ls : List Text) : List Bool := ls.dropLast.map (·.getLast? = some (.char '\r'))

/-- A line without the carriage return at its end, if it has one. -/
def dropReturn (l : Text) (hasReturn : Bool) : Text := if hasReturn then l.dropLast else l

/-- The source that some lines hold, without the carriage returns at their ends. -/
def sourceOf (ls : List Text) : Text := Text.unlines (List.zipWith dropReturn ls (carriageReturns ls ++ [false]))

/-- The end of a line. -/
def lineEnd (hasReturn : Bool) : Text := if hasReturn then [.char '\r', Text.lineFeed] else [Text.lineFeed]

/-- Lines with the ends of the lines that they replace. -/
def restoreEnds (formatted replaced : List Text) : Text :=
  (List.zipWith (· ++ ·) formatted ((carriageReturns replaced).map lineEnd ++ [[]])).flatten

/-- Runs the passes that the style asks for. -/
def passes (st : Style) (s : Strand) (trace : Trace) : Strand × Trace :=
  let (s, trace) :=
    if st.groupsAny then
      let g := ({ strand := s, trace } : Grouping).run st
      (g.strand, g.trace)
    else (s, trace)
  if st.alignCalls then
    let a := CallAligner.align st s
    (a.strand, a.draft.trace ++ trace)
  else (s, trace)

/-- A file formatted, and what was reported. -/
def bytes (lexer : Lexer) (st : Style) (language : String) (file : List UInt8) : Except Fault (List UInt8 × Trace) := do
  let given := (Text.decode file).lines
  let src : Source := { text := sourceOf given, tabSize := st.inputTabSize, language }
  let read := src.annotate (lexer src.text)
  let s := Strand.ofLexemes language read.lexemes.reverse
  let (s, trace) := passes st s (.sourceRead s.size language :: read.trace)
  let formatted ← s.render st.ruling
  return (Text.encode (restoreEnds formatted.lines given), trace)

end Format

end CodeGroom
