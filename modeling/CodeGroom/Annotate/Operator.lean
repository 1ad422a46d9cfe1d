import CodeGroom.Annotate.Bracket
import CodeGroom.Token.Basic

/-!
# Reading operators, words and numbers

A run of operator symbols is cut into the longest operators. What an operator is depends on the code before it: `(` after a name
is a call or a definition, `<` may open template arguments, `:` may answer a question mark.
-/

namespace CodeGroom.Annotator

/-- The operators of three symbols. -/
def tripleOperators : List Text := ["<<=", ">>=", "->*", "..."].map Text.ofString

/-- The operators of two symbols. -/
def doubleOperators : List Text :=
  ["==", "!=", "<=", ">=", "&&", "||", "::", "->", "+=", "-=", "*=", "/=", "%=", "&=", "|=", "^=", "++", "--", "<<", ">>",
    ".*"].map Text.ofString

/-- A run of operator symbols, cut into operators from the left, each as long as possible. -/
def cutOperators : Text → List Text
  | x :: y :: z :: rest =>
    if tripleOperators.contains [x, y, z] then [x, y, z] :: cutOperators rest
    else if doubleOperators.contains [x, y] then [x, y] :: cutOperators (z :: rest)
    else [x] :: cutOperators (y :: z :: rest)
  | [x, y] => if doubleOperators.contains [x, y] then [[x, y]] else [[x], [y]]
  | [x] => [[x]]
  | [] => []

/-- The kinds of the operators that always mean the same. Any other operator is an arithmetic one. -/
def operatorKinds : List (Text × Kind) :=
  [("==", .compare), ("!=", .compare), ("<=", .compare), (">=", .compare), ("<", .compare), (">", .compare),
    ("&&", .logical), ("||", .logical), (".", .member), ("->", .member), (",", .comma), ("=", .assign), ("+=", .assign),
    ("-=", .assign), ("*=", .assign), ("/=", .assign), ("%=", .assign), ("&=", .assign), ("|=", .assign), ("^=", .assign),
    ("<<=", .assign), (">>=", .assign)].map fun (s, k) => (Text.ofString s, k)

/-- The kinds of the keywords that matter. -/
def keywordKinds : List (Text × Kind) :=
  [("if", .ifWord), ("else", .elseWord), ("switch", .switchWord), ("while", .whileWord), ("for", .forWord), ("do", .doWord),
    ("return", .returnWord), ("case", .caseWord), ("and", .logical), ("or", .logical), ("not_eq", .compare)].map
    fun (s, k) => (Text.ofString s, k)

/-- Reads a plus or minus: an operator behind an operand, else a sign. -/
def sign (src : Source) (start : Nat) (x : Symbol) (a : Annotator) : Annotator :=
  let kind : Kind := if a.lastCode.kind.isOperand then .arith else if x = .char '-' then .minusSign else .plusSign
  a.addPlain src kind start [x]

/-- Reads `(`: a word before it becomes a name that is called, or defined where a type or another word stands before the word. -/
def openRound (src : Source) (start : Nat) (text : Text) (a : Annotator) : Annotator :=
  let a :=
    if a.lastCode.kind = .word then
      a.retype (if a.codeBeforeLast = .type ∨ a.codeBeforeLast = .word then .defName else .callName)
    else a
  let k := a.lastCode.kind
  if k = .callName ∨ k = .defName then a.openBracket src .call start text k
  else if k.ownsCondition then a.openBracket src .condition start text k
  else a.openBracket src .paren start text .nothing

/-- Reads `>`: it closes an angle bracket if that is the innermost open one, else it compares. -/
def closeAngle (src : Source) (start : Nat) (a : Annotator) : Annotator :=
  if a.innermost? = some .angle then a.closeBracket src (· = .angle) .angle start [.char '>']
  else a.addPlain src .compare start [.char '>']

/-- Whether `<` at a place opens template arguments. -/
def startsAngle (src : Source) (start : Nat) (a : Annotator) : Bool :=
  a.lastCode.text = Text.ofString "template" || a.innermost? = some .angle ||
    ((a.lastCode.kind = .type || a.lastCode.kind = .word) && opensTemplate src start)

/-- Reads `:`: it answers the latest question mark if that stands directly inside the same bracket. -/
def colon (src : Source) (start : Nat) (text : Text) (a : Annotator) : Annotator :=
  match a.questions with
  | q :: rest =>
    if q = a.depth then { a with questions := rest }.addPlain src .condColon start text
    else a.addPlain src .colon start text
  | [] => a.addPlain src .colon start text

/-- Reads an operator. -/
def operator (src : Source) (start : Nat) (op : Text) (a : Annotator) : Annotator :=
  match op with
  | [.char '('] => a.openRound src start op
  | [.char ')'] => a.closeBracket src Bracket.isRound .paren start op
  | [.char '['] => a.openBracket src .square start op .nothing
  | [.char ']'] => a.closeBracket src (· = .square) .square start op
  | [.char '\x7b'] => a.openBracket src .brace start op .nothing
  | [.char '\x7d'] => a.closeBracket src (· = .brace) .brace start op
  | [.char '<'] =>
    if a.startsAngle src start then a.openBracket src .angle start op .nothing else a.addPlain src .compare start op
  | [.char '>'] => a.closeAngle src start
  | [.char '>', .char '>'] =>
    if a.innermost? = some .angle then (a.closeAngle src start).closeAngle src (start + 1)
    else a.addPlain src .arith start op
  | [.char ':'] => a.colon src start op
  | [.char '?'] => { a with questions := a.depth :: a.questions }.addPlain src .question start op
  | [.char ';'] => { a with questions := a.questions.filter (· < a.depth) }.addPlain src .semicolon start op
  | [.char ':', .char ':'] =>
    (if a.lastCode.kind = .word then a.retype .type else a).addPlain src .qualifier start op
  | [.char '+'] => a.sign src start (.char '+')
  | [.char '-'] => a.sign src start (.char '-')
  | _ => a.addPlain src ((operatorKinds.lookup op).getD .arith) start op

/-- Reads a run of operators. -/
def operators (src : Source) : Nat → List Text → Annotator → Annotator
  | _, [], a => a
  | start, op :: ops, a => operators src (start + op.length) ops (a.operator src start op)

/-- The kind of a word of some class behind some code. -/
def wordKind (cls : TokenClass) (text : Text) (before : Kind) : Kind :=
  if cls.within .keywordType then .type
  else if cls.within .keyword then
    match (keywordKinds.lookup text).getD .keyword with
    | .ifWord => if before = .elseWord then .elseIfWord else .ifWord
    | k => k
  else if cls.within .nameFunction then .defName
  else if cls.within .nameClass || cls.within .nameNamespace then .type
  else .word

/-- Reads a word. -/
def word (src : Source) (start : Nat) (cls : TokenClass) (text : Text) (a : Annotator) : Annotator :=
  a.addPlain src (wordKind cls text a.lastCode.kind) start text

/-- The parts of a name between its `::`. -/
def cutScopes : Text → List Text
  | [] => [[]]
  | .char ':' :: .char ':' :: rest => [] :: cutScopes rest
  | x :: rest =>
    match cutScopes rest with
    | [] => [[x]]
    | w :: ws => (x :: w) :: ws

/-- Reads a name with its qualifiers; only the last part has the class of the whole. -/
def names (src : Source) (cls : TokenClass) : Nat → List Text → Annotator → Annotator
  | _, [], a => a
  | start, [w], a => if w = [] then a else a.word src start cls w
  | start, w :: ws, a =>
    let a := if w = [] then a else a.word src start .name w
    let a := a.operator src (start + w.length) (Text.ofString "::")
    names src cls (start + w.length + 2) ws a

/-- Reads a number, which a lexer may hand over with its sign. -/
def number (src : Source) (start : Nat) (cls : TokenClass) (text : Text) (a : Annotator) : Annotator :=
  let kind : Kind := if cls.within .numberFloat then .float else .integer
  match text with
  | x :: rest =>
    if x.isOneOf "+-" then (a.sign src start x).addPlain src kind (start + 1) rest
    else a.addPlain src kind start text
  | [] => a.addPlain src kind start text

end CodeGroom.Annotator
