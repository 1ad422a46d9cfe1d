import CodeGroom.Annotate.Directive
import CodeGroom.Annotate.Operator
import CodeGroom.Strand.Basic

/-!
# Reading a source

The tokens of a source, cut at line feeds and joined where they were cut too finely, are read one by one into lexemes.
-/

namespace CodeGroom

namespace Annotator

/-- Reads a token. -/
def token (src : Source) (a : Annotator) (t : Token) : Annotator :=
  if t.start < a.resume then a
  else if t.text = [Text.lineFeed] then a.newline src t.start
  else if t.cls.within .directive && t.text.trimStart.head? = some (.char '#') && !a.lineHasCode then
    a.directive src (t.start + (t.text.length - t.text.trimStart.length))
  else if t.cls.within .comment then a.addPlain src .comment t.start t.text
  else if t.text.isBlank then a
  else if t.cls.within .string then a.addPlain src .string t.start t.text
  else if t.cls.within .number then a.number src t.start t.cls t.text
  else if t.cls.within .keyword || t.cls.within .name then a.names src t.cls t.start (cutScopes t.text)
  else if t.cls.within .operator || t.cls.within .punctuation then a.operators src t.start (cutOperators t.text)
  else a.addPlain src .other t.start t.text

/-- Reads tokens in their order. -/
def tokens (src : Source) (ts : List Token) (a : Annotator) : Annotator := ts.foldl (token src) a

end Annotator

namespace Source

/-- The state after reading a source that a lexer has cut into tokens. -/
def annotate (src : Source) (ts : List Token) : Annotator :=
  ({} : Annotator).tokens src (Token.mergeRuns (Token.cutLines ts))

/-- The lexemes of a source that a lexer has cut into tokens. -/
def read (src : Source) (ts : List Token) : Strand := .ofLexemes src.language (src.annotate ts).lexemes.reverse

end Source

end CodeGroom
