import CodeGroom.Layout.Render
import CodeGroom.Lexeme.Basic

/-!
# Expression trees

How the precedence of operators groups a text, without the parentheses that are there only to group it. Commas bind least; then
assignments and `?:`, from the right; then `||`; then `&&`; whatever binds tighter is kept as a row of operands and operators. A
text is read from its end, so what an operator has on its right is complete when the operator is met.
-/

namespace CodeGroom

/-- What an expression, a statement or a bracket holds. -/
inductive Tree where
  | missing
  | word (kind : Kind) (text : Text)
  | beside (first rest : Tree)
  | bracket (shape : Bracket) (inner : Tree)
  | binary (kind : Kind) (text : Text) (left right : Tree)
  | choice (condition yes no : Tree)
  | followed (statement rest : Tree)
deriving DecidableEq, Repr

/-- An operator with the operand on its right. -/
structure Joint where
  text : Text
  operand : Tree
deriving DecidableEq, Repr

namespace Tree

/-- A row of operands and operators; one alone stands for itself. -/
def ofRow : List Tree → Tree
  | [] => missing
  | [t] => t
  | ts => ts.foldr beside missing

/-- An operand with the operators behind it, all of one kind and precedence, from the left. -/
def join (kind : Kind) (t : Tree) (js : List Joint) : Tree := js.foldl (fun l j => binary kind j.text l j.operand) t

/-- Statements one behind the other. -/
def ofStatements (t : Tree) : List Tree → Tree
  | [] => t
  | s :: ss => followed t (ofStatements s ss)

end Tree

/-- What the operand before an assignment or a `?:` is the left part of. -/
inductive Tail where
  | nothing
  | assigned (text : Text) (value : Tree)
  | chosen (yes no : Tree)
deriving DecidableEq, Repr

/-- The part of a `?:` behind the colon, and the commas behind that. -/
structure Otherwise where
  no : Tree
  commas : List Joint
deriving DecidableEq, Repr

/-- What has been read of the inside of a bracket, from its end: the operand that is being read, the operands that `&&` and `||`
have joined to it, the assignment or `?:` that it is the left part of, what stands behind a comma, behind each colon that still
needs its `?`, and behind a semicolon. -/
structure Frame where
  row : List Tree := []
  conjuncts : List Joint := []
  disjuncts : List Joint := []
  tail : Tail := .nothing
  commas : List Joint := []
  colons : List Otherwise := []
  statements : List Tree := []
deriving DecidableEq, Repr

namespace Frame

/-- The operand read last. -/
def operand (f : Frame) : Tree := .ofRow f.row

/-- It with what `&&` has joined to it. -/
def conjunction (f : Frame) : Tree := f.operand.join .logical f.conjuncts

/-- It with what `&&` and `||` have joined to it. -/
def disjunction (f : Frame) : Tree := f.conjunction.join .logical f.disjuncts

/-- It with the assignment or `?:` that it is the left part of. -/
def assignment (f : Frame) : Tree :=
  match f.tail with
  | .nothing => f.disjunction
  | .assigned text value => .binary .assign text f.disjunction value
  | .chosen yes no => .choice f.disjunction yes no

/-- It with all that commas have joined to it. -/
def expression (f : Frame) : Tree := f.assignment.join .comma f.commas

/-- It up to the next semicolon. A colon without its `?` takes part as the loosest operator. -/
def statement (f : Frame) : Tree :=
  f.colons.foldl (fun t c => (Tree.binary .condColon [] t c.no).join .comma c.commas) f.expression

/-- All of it. -/
def tree (f : Frame) : Tree := .ofStatements f.statement f.statements

/-- Adds to the operand that is being read. -/
def add (t : Tree) (f : Frame) : Frame := { f with row := t :: f.row }

/-- Whether a logical operator is an `or`. -/
def isOr (text : Text) : Bool := text = Text.ofString "||" || text = Text.ofString "or"

/-- The operand is an operand of `&&` or of `||`, and another one is read next. -/
def joinLogical (text : Text) (f : Frame) : Frame :=
  if isOr text then { f with row := [], conjuncts := [], disjuncts := ⟨text, f.conjunction⟩ :: f.disjuncts }
  else { f with row := [], conjuncts := ⟨text, f.operand⟩ :: f.conjuncts }

/-- What was read since the last comma is the value of an assignment. -/
def assign (text : Text) (f : Frame) : Frame :=
  { tail := .assigned text f.assignment, commas := f.commas, colons := f.colons, statements := f.statements }

/-- What was read since the colon is the middle of a `?:`. -/
def ask (f : Frame) : Frame :=
  match f.colons with
  | [] => { tail := .chosen f.expression .missing, statements := f.statements }
  | c :: cs => { tail := .chosen f.expression c.no, commas := c.commas, colons := cs, statements := f.statements }

/-- What was read since the last comma is the part of a `?:` behind the colon. -/
def answer (f : Frame) : Frame := { colons := ⟨f.assignment, f.commas⟩ :: f.colons, statements := f.statements }

/-- What was read since the last comma stands behind another one. -/
def comma (text : Text) (f : Frame) : Frame :=
  { commas := ⟨text, f.assignment⟩ :: f.commas, colons := f.colons, statements := f.statements }

/-- What was read since the last semicolon is a statement. -/
def finish (f : Frame) : Frame := { statements := f.statement :: f.statements }

/-- What was read since the last semicolon is returned: it is read like a statement of its own. -/
def giveBack (text : Text) (f : Frame) : Frame := f.finish.add (.word .returnWord text)

/-- Reads a lexeme that is no bracket. Comments, line breaks and directives say nothing. -/
def read (x : Lexeme) (f : Frame) : Frame :=
  if x.inDirective || !x.kind.isCode then f
  else match x.kind with
  | .logical => f.joinLogical x.text
  | .assign => f.assign x.text
  | .question => f.ask
  | .condColon => f.answer
  | .comma => f.comma x.text
  | .returnWord => f.giveBack x.text
  | .semicolon => f.finish
  | k => f.add (.word k x.text)

/-- What a bracket adds to the operand that it stands in: plain parentheses only what they hold. -/
def bracketed (shape : Bracket) (inner : Frame) : Tree :=
  if shape = .paren then inner.tree else .bracket shape inner.tree

end Frame

/-- What has been read from the end of a text: the inside of the innermost bracket that closes there, and what lies around it. -/
structure Reading where
  top : Frame := {}
  outer : List Frame := []
deriving DecidableEq, Repr

namespace Reading

/-- Reads a lexeme from the right: a closing bracket starts an inside and an opening one ends it. -/
def read (x : Lexeme) (r : Reading) : Reading :=
  if x.inDirective then r
  else match x.kind with
  | .closing _ => { top := {}, outer := r.top :: r.outer }
  | .opening b => { top := (r.outer.headD {}).add (r.top.bracketed b), outer := r.outer.tail }
  | _ => { r with top := r.top.read x }

/-- Reads lexemes from the last to the first. -/
def ofLexemes (xs : List Lexeme) (r : Reading) : Reading := xs.foldr read r

/-- The trees of what was read: of the whole when brackets match, else also of what stands behind each closing bracket that
nothing opens. -/
def trees (r : Reading) : List Tree := (r.top :: r.outer).map Frame.tree

end Reading

/-- The trees of all statements and conditions of a strand. -/
def Strand.trees (s : Strand) : List Tree := (Reading.ofLexemes s.lexemes {}).trees

end CodeGroom
