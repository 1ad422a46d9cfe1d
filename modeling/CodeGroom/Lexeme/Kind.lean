/-!
# Kinds of lexemes

What a lexeme is, as far as formatting cares. Brackets come in six shapes; round ones are told apart by what they belong to: a
condition, a call or definition, or nothing in particular. A closing bracket fits the openings of its own shape, and `)` any
round one.
-/

namespace CodeGroom

/-- The shapes of brackets. -/
inductive Bracket where
  | paren
  | condition
  | call
  | brace
  | square
  | angle
deriving DecidableEq, Repr, Inhabited

/-- Whether the bracket is written with a round parenthesis. -/
def Bracket.isRound : Bracket → Bool
  | .paren | .condition | .call => true
  | _ => false

/-- What a lexeme is. `nothing` is the kind of the lexeme that is not there. -/
inductive Kind where
  | nothing
  | newline
  | comment
  | directive
  | word
  | type
  | keyword
  | callName
  | defName
  | integer
  | float
  | plusSign
  | minusSign
  | string
  | comma
  | semicolon
  | compare
  | logical
  | question
  | condColon
  | colon
  | assign
  | arith
  | member
  | qualifier
  | ifWord
  | elseIfWord
  | elseWord
  | switchWord
  | whileWord
  | forWord
  | doWord
  | returnWord
  | caseWord
  | other
  | opening (b : Bracket)
  | closing (b : Bracket)
deriving DecidableEq, Repr, Inhabited

namespace Kind

/-- The name of a bracket's shape in listings. -/
def bracketLabel : Bracket → String
  | .paren => "PAREN"
  | .condition => "SPAREN"
  | .call => "FPAREN"
  | .brace => "BRACE"
  | .square => "SQUARE"
  | .angle => "ANGLE"

/-- The name of a kind in listings. -/
def label : Kind → String
  | nothing => "NONE"
  | newline => "NEWLINE"
  | comment => "COMMENT"
  | directive => "PREPROC"
  | word => "WORD"
  | type => "TYPE"
  | keyword => "KEYWORD"
  | callName => "FUNC_CALL"
  | defName => "FUNC_DEF"
  | integer => "NUMBER"
  | float => "NUMBER_FP"
  | plusSign => "POS"
  | minusSign => "NEG"
  | string => "STRING"
  | comma => "COMMA"
  | semicolon => "SEMICOLON"
  | compare => "COMPARE"
  | logical => "BOOL"
  | question => "QUESTION"
  | condColon => "COND_COLON"
  | colon => "COLON"
  | assign => "ASSIGN"
  | arith => "ARITH"
  | member => "MEMBER"
  | qualifier => "DC_MEMBER"
  | ifWord => "IF"
  | elseIfWord => "ELSEIF"
  | elseWord => "ELSE"
  | switchWord => "SWITCH"
  | whileWord => "WHILE"
  | forWord => "FOR"
  | doWord => "DO"
  | returnWord => "RETURN"
  | caseWord => "CASE"
  | other => "OTHER"
  | opening b => bracketLabel b ++ "_OPEN"
  | closing b => bracketLabel b ++ "_CLOSE"

/-- Every bracket shape. -/
def brackets : List Bracket := [.paren, .condition, .call, .brace, .square, .angle]

/-- Every kind. -/
def all : List Kind :=
  [nothing, newline, comment, directive, word, type, keyword, callName, defName, integer, float, plusSign, minusSign, string,
    comma, semicolon, compare, logical, question, condColon, colon, assign, arith, member, qualifier, ifWord, elseIfWord, elseWord,
    switchWord, whileWord, forWord, doWord, returnWord, caseWord, other] ++ brackets.map opening ++ brackets.map closing

/-- The kind with a given name. -/
def ofLabel? (s : String) : Option Kind := all.find? (·.label == s)

/-- Whether the lexeme is code, that is no line break, no comment and no part of a directive. -/
def isCode : Kind → Bool
  | newline | comment | directive => false
  | _ => true

/-- The kind of the bracket that closes this one. -/
def closer? : Kind → Option Kind
  | opening b => some (closing b)
  | _ => none

/-- Whether a sign after this lexeme joins it to the next one instead of belonging to a literal. -/
def isOperand : Kind → Bool
  | word | integer | float | string | closing .paren | closing .call | closing .square => true
  | _ => false

/-- Whether the next parenthesis after this lexeme holds the condition of a statement. -/
def ownsCondition : Kind → Bool
  | ifWord | elseIfWord | switchWord | whileWord | forWord => true
  | _ => false

/-- Whether the next code lexeme after this one starts a statement. -/
def endsStatement : Kind → Bool
  | semicolon | opening .brace | closing .brace | closing .condition | elseWord | doWord => true
  | _ => false

/-- Whether the lexeme is a number or the sign of one. -/
def isNumeric : Kind → Bool
  | integer | float | plusSign | minusSign => true
  | _ => false

end Kind

end CodeGroom
