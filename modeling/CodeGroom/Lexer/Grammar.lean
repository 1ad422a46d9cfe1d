import CodeGroom.Lexer.Fragments
import CodeGroom.Lexer.Scan
import CodeGroom.Lexer.Vocabulary

/-!
# The grammars of C and C++

The rules by which C and C++ source is cut into tokens. The two languages share most of them. Functions are recognised by a
return type, a name, parentheses and a brace or semicolon; the parts of such a match are lexed again by themselves.
-/

namespace CodeGroom

/-- The dialects that there are rules for. -/
inductive Dialect where
  | c
  | cpp
deriving DecidableEq, Repr

namespace Grammar

open Pattern Fragment Rule

/-- The text of a part is lexed by itself. -/
def inner : Action := .lex [.root]

/-- The text of a part is lexed by itself as white space and comments. -/
def innerLayout : Action := .lex [.layout, .root]

/-- `#if 0`. -/
def ifZero : Pattern := lit "#if" ++ some1 blank ++ lit "0"

/-- A label, which stands first on its line. -/
def label : Rule :=
  several [(lineStart ++ many (oneOf " \t"), .token .whitespace),
    (notFollowedBy (words Vocabulary.noLabels) ++ name, .token .nameLabel), (many blank, .token .whitespace),
    (lit ":" ++ notFollowedBy (lit ":"), .token .punctuation)]

/-- Directives, labels, white space and comments. -/
def layoutRules : List Rule :=
  [single (lineStart ++ ifZero) .directive [.push .inactive],
    single (lineStart ++ lit "#") .directive [.push .directive],
    several [(lineStart ++ spaceWithComment, inner), (ifZero, .token .directive)] [.push .inactive],
    several [(lineStart ++ spaceWithComment, inner), (lit "#", .token .directive)] [.push .directive],
    label,
    single (lit "\n") .whitespace,
    single (some1 (one fun x => x.isBlank && x != Text.lineFeed)) .whitespace,
    single (lit "\\\n") .text,
    single lineComment .commentSingle,
    single blockComment .commentMultiline,
    single (lit "/" ++ splice ++ lit "*" ++ many any) .commentMultiline]

/-- An attribute between double square brackets. -/
def attributeRule : Rule :=
  single (lit "[[" ++ followedBy (many (noneOf "[]") ++ lit "]]")) .punctuation [.push .attribute]

/-- An annotation between double square brackets. -/
def remarkRule : Rule :=
  several [(lit "[[", .token .punctuation), (lit "=", .token .punctuation), (name, .token .nameDecorator)] [.push .remark]

/-- A raw string, which ends at its delimiter. -/
def rawStringRule : Rule where
  parts :=
    [{ pattern := encodingMark ++ lit "R", action := .token .stringAffix }, { pattern := lit "\"", action := .token .string },
      { pattern := times (one fun x => !x.isBlank && !among ['\\', '(', ')'] x) 0 16, action := .token .stringDelimiter },
      { pattern := lit "(", action := .token .stringDelimiter }, { pattern := fewest any, action := .token .string },
      { pattern := lit ")", action := .token .stringDelimiter, echo := some 2 },
      { pattern := lit "\"", action := .token .string }]

/-- The types of both languages. -/
def commonTypes : List Rule :=
  [single (lit "__" ++ words Vocabulary.vendorTypes) .keywordReserved, single (words Vocabulary.types) .keywordType]

/-- The types of a dialect. -/
def typeRules : Dialect → List Rule
  | .c => single (words Vocabulary.cTypes) .keywordType :: commonTypes
  | .cpp => single (words Vocabulary.cppTypes) .keywordType :: commonTypes

/-- A keyword and white space, behind which a name of its own kind stands. -/
def introducer (ws : List String) (m : Mode) : Rule :=
  several [(firstOf (ws.map lit), .token .keyword), (some1 blank, .token .whitespace)] [.push m]

/-- The keywords of both languages. -/
def commonKeywords : List Rule :=
  [introducer ["struct", "union"] .className,
    single (words ["case"]) .keyword [.push .caseValue],
    single (words Vocabulary.keywords) .keyword,
    single (words Vocabulary.reserved) .keywordReserved,
    single (lit "__m" ++ words ["128i", "128d", "128", "64"]) .keywordReserved,
    single (lit "__" ++ words Vocabulary.vendorReserved) .keywordReserved]

/-- The keywords of a dialect. -/
def keywordRules : Dialect → List Rule
  | .c => single (words Vocabulary.cKeywords) .keyword :: commonKeywords
  | .cpp =>
    [introducer ["class", "concept", "typename"] .className,
      single (words Vocabulary.cppKeywords) .keyword,
      single (words ["namespace"]) .keyword [.push .namespaceName],
      introducer ["enum"] .enumName] ++ commonKeywords

/-- Literals, operators and names. -/
def commonStatements : List Rule :=
  [several [(encodingMark, .token .stringAffix), (lit "\"", .token .string)] [.push .string],
    several [(encodingMark, .token .stringAffix), (lit "'", .token .stringChar), (characterBody, .token .stringChar),
      (lit "'", .token .stringChar)],
    single hexFloat .numberFloat,
    single exponentFloat .numberFloat,
    single pointFloat .numberFloat,
    single hexInteger .numberHex,
    single binaryInteger .numberBin,
    single octalInteger .numberOct,
    single decimalInteger .numberInteger,
    single (oneOf "~!%^&*+=|?:<>/-") .operator,
    single (oneOf "()[],.") .punctuation,
    single (words Vocabulary.constants) .nameBuiltin,
    single name .name]

/-- What a statement of a dialect is made of. -/
def statementRules (d : Dialect) : List Rule :=
  let own :=
    match d with
    | .c => [attributeRule]
    | .cpp => [rawStringRule, remarkRule, attributeRule]
  own ++ keywordRules d ++ typeRules d ++ commonStatements

/-- The beginning of a function: its return type, name and parentheses, with white space and comments. -/
def functionHead : List (Pattern × Action) :=
  [(qualifiedName ++ some1 (oneOf "&*" <|> blank), inner), (spaceAndComments, innerLayout),
    (qualifiedName, .token .nameFunction), (spaceAndComments, innerLayout),
    (lit "(" ++ fewest (noneOf ";\"')") ++ lit ")", inner), (spaceAndComments, innerLayout)]

/-- The definition of a function, up to its opening brace. -/
def functionDefinition : Rule :=
  several (functionHead ++ [(many (noneOf ";\x7b/\"'"), inner), (lit "\x7b", .token .punctuation)]) [.push .function]

/-- The declaration of a function. -/
def functionDeclaration : Rule :=
  several (functionHead ++ [(many (noneOf ";/\"'"), inner), (lit ";", .token .punctuation)])

/-- The rules outside functions. -/
def rootRules (d : Dialect) : List Rule :=
  layoutRules ++ keywordRules d ++ [functionDefinition, functionDeclaration] ++ typeRules d ++ [always [.push .statement]]

/-- The rules of a statement outside functions. -/
def outerStatementRules (d : Dialect) : List Rule :=
  layoutRules ++ statementRules d ++ [single (lit "\x7d") .punctuation, single (oneOf "\x7b;") .punctuation [.pop]]

/-- The rules in the body of a function. -/
def functionRules (d : Dialect) : List Rule :=
  layoutRules ++ statementRules d ++
    [single (lit ";") .punctuation, single (lit "\x7b") .punctuation [.pushAgain], single (lit "\x7d") .punctuation [.pop]]

/-- The rules in a string. -/
def stringRules : List Rule :=
  [single (lit "\"") .string [.pop], single stringEscape .stringEscape, single (some1 (noneOf "\\\"\n")) .string,
    single (lit "\\\n") .string, single (lit "\\") .string]

/-- A comment in a directive. -/
def directiveComment : Pattern := lit "/*" ++ fewest any ++ lit "*/"

/-- The beginning of an `include`, up to the white space behind the file. -/
def includeHead : List (Pattern × Action) :=
  [(spaceWithComment, inner), (lit "include", .token .directive), (spaceWithComment, inner),
    ((lit "\"" ++ some1 (noneOf "\"") ++ lit "\"") <|> (lit "<" ++ some1 (noneOf ">") ++ lit ">"), .token .directiveFile),
    (many (one fun x => x.isBlank && x != Text.lineFeed), inner)]

/-- The rules in a directive. -/
def directiveRules : List Rule :=
  [several (includeHead ++ [(many (noneOf "/\n") ++ directiveComment, .token .commentMultiline)]),
    several (includeHead ++ [(many inLine, .token .commentSingle)]),
    single (some1 (noneOf "/\n")) .directive,
    single directiveComment .commentMultiline,
    single (lit "//" ++ fewest inLine ++ lit "\n") .commentSingle [.pop],
    single (lit "/") .directive,
    single (behind '\\' ++ lit "\n") .directive,
    single (lit "\n") .directive [.pop]]

/-- The rules between `#if 0` and its end. -/
def inactiveRules : List Rule :=
  [single (lineStart ++ many blank ++ lit "#if" ++ fewest inLine ++ notBehind '\\' ++ lit "\n") .directive [.pushAgain],
    single (lineStart ++ many blank ++ lit "#el" ++ (lit "se" <|> lit "if") ++ many inLine ++ lit "\n") .directive [.pop],
    single (lineStart ++ many blank ++ lit "#endif" ++ fewest inLine ++ notBehind '\\' ++ lit "\n") .directive [.pop],
    single (fewest inLine ++ lit "\n") .comment]

/-- The end of a name that was expected: the name itself, the end of template arguments, or anything else. -/
def namedRules : List Rule :=
  [single name .nameClass [.pop], single (many blank ++ followedBy (lit ">")) .text [.pop], always [.pop]]

/-- The rules behind `struct` and the like. -/
def classNameRules (d : Dialect) : List Rule :=
  layoutRules ++ (match d with | .c => [] | .cpp => [remarkRule]) ++ [attributeRule] ++ namedRules

/-- The rules behind `enum`. -/
def enumNameRules : List Rule :=
  layoutRules ++ [single (words ["class", "struct"]) .keyword, remarkRule, attributeRule] ++ namedRules

/-- The rules behind `case`. -/
def caseValueRules (d : Dialect) : List Rule :=
  [single (notBehind ':' ++ lit ":" ++ notFollowedBy (lit ":")) .punctuation [.pop], single name .nameConstant] ++ layoutRules ++
    statementRules d

/-- The rules in an attribute. -/
def attributeRules (d : Dialect) : List Rule :=
  (match d with
    | .c => []
    | .cpp => [single (words ["using"]) .keyword, single (lit ":") .punctuation]) ++
    [single (lit "]]") .punctuation [.pop], single name .nameAttribute, single (lit "(") .punctuation [.push .attributeArguments],
      single (lit "::") .punctuation, single (lit ",") .punctuation] ++ layoutRules

/-- The rules in the parentheses of an attribute or annotation. -/
def argumentRules (d : Dialect) : List Rule :=
  [single (lit ")") .punctuation [.pop], single (lit "(") .punctuation [.pushAgain]] ++ statementRules d

/-- The rules in an annotation. -/
def remarkRules : List Rule :=
  [single (lit "]]") .punctuation [.pop], single (lit "(") .punctuation [.push .remarkArguments],
    single (lit "::") .punctuation, single (lit ",") .punctuation, single name .nameDecorator] ++ layoutRules

/-- The rules behind `namespace`. -/
def namespaceRules (d : Dialect) : List Rule :=
  [single (lit ";") .punctuation [.pop, .push .root], single (lit "\x7b") .punctuation [.pop, .push .namespaceBody],
    single (words ["inline"]) .keywordReserved, single name .nameNamespace] ++ outerStatementRules d

/-- The rules in the body of a namespace. -/
def namespaceBodyRules (d : Dialect) : List Rule := single (lit "\x7d") .punctuation [.pop] :: rootRules d

/-- The grammar of C. -/
def c : Grammar
  | .root => rootRules .c
  | .layout => layoutRules
  | .statement => outerStatementRules .c
  | .function => functionRules .c
  | .string => stringRules
  | .directive => directiveRules
  | .inactive => inactiveRules
  | .className => classNameRules .c
  | .enumName => []
  | .caseValue => caseValueRules .c
  | .attribute => attributeRules .c
  | .attributeArguments => argumentRules .c
  | .namespaceName | .namespaceBody | .remark | .remarkArguments => []

/-- The grammar of C++. -/
def cpp : Grammar
  | .root => rootRules .cpp
  | .layout => layoutRules
  | .statement => outerStatementRules .cpp
  | .function => functionRules .cpp
  | .string => stringRules
  | .directive => directiveRules
  | .inactive => inactiveRules
  | .className => classNameRules .cpp
  | .enumName => enumNameRules
  | .caseValue => caseValueRules .cpp
  | .attribute => attributeRules .cpp
  | .attributeArguments | .remarkArguments => argumentRules .cpp
  | .namespaceName => namespaceRules .cpp
  | .namespaceBody => namespaceBodyRules .cpp
  | .remark => remarkRules

end Grammar

/-- A name that stands for a type is one. -/
def Token.knowTypes (t : Token) : Token :=
  if t.cls = .name && Vocabulary.typeNames.contains t.text then { t with cls := .keywordType } else t

/-- The tokens of a source text: C by the rules of C, every other language by those of C++. -/
def sourceTokens (language : String) (t : Text) : List Token :=
  ((if language = "c" then Grammar.c else Grammar.cpp).lex t).map Token.knowTypes

end CodeGroom
