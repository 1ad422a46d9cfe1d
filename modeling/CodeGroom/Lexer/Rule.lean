import CodeGroom.Lexer.Pattern
import CodeGroom.Token.Basic

/-!
# Rules of a lexer

A lexer is always in some mode, and each mode has its rules in the order in which they are tried. A rule matches one part after
another, says what becomes of the text of each part, and changes the stack of modes.
-/

namespace CodeGroom

/-- What a lexer is reading. -/
inductive Mode where
  | root
  | layout
  | statement
  | function
  | string
  | directive
  | inactive
  | className
  | enumName
  | caseValue
  | attribute
  | attributeArguments
  | namespaceName
  | namespaceBody
  | remark
  | remarkArguments
deriving DecidableEq, Repr, Inhabited

/-- What becomes of the text of a part: nothing, a token, or the tokens found by lexing it by itself from a stack of modes. -/
inductive Action where
  | drop
  | token (cls : TokenClass)
  | lex (stack : List Mode)
deriving Repr

/-- A change of the stack of modes. -/
inductive Move where
  | push (m : Mode)
  | pushAgain
  | pop
deriving DecidableEq, Repr

/-- A part of a rule: a pattern, then, if `echo` is given, the text of that earlier part once more. -/
structure Part where
  pattern : Pattern
  action : Action
  echo : Option Nat := none

/-- A rule: its parts and the changes of the mode behind them. -/
structure Rule where
  parts : List Part
  moves : List Move := []

/-- The rules of every mode. -/
abbrev Grammar := Mode → List Rule

namespace Rule

/-- A rule that makes one token. -/
def single (pattern : Pattern) (cls : TokenClass) (moves : List Move := []) : Rule := ⟨[{ pattern, action := .token cls }], moves⟩

/-- A rule of several parts. -/
def several (parts : List (Pattern × Action)) (moves : List Move := []) : Rule :=
  ⟨parts.map fun (pattern, action) => { pattern, action }, moves⟩

/-- A rule that only changes the mode. -/
def always (moves : List Move) : Rule := ⟨[], moves⟩

/-- Matches the remaining parts of a rule; `done` holds the texts of those matched already. The answer lists where each part
ends. -/
def matchParts : List Part → List Text → Place → Option (List Place)
  | [], _, _ => some []
  | part :: parts, done, p =>
    let repeats := Pattern.exactly ((part.echo.bind (done[·]?)).getD [])
    (part.pattern ++ repeats).run p fun q => (matchParts parts (done ++ [p.upTo q]) q).map (q :: ·)

end Rule

/-- Changes a stack of modes, which is never left empty. -/
def Move.apply (stack : List Mode) : Move → List Mode
  | push m => m :: stack
  | pushAgain => stack.headD .root :: stack
  | pop => if stack.length ≤ 1 then stack else stack.drop 1

end CodeGroom
