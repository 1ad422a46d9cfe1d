import CodeGroom.Lexer.Rule

/-!
# Running a lexer

At each place the first rule of the current mode that matches is used. Where none does, a line feed takes the lexer back to its
first mode and any other symbol is an error of its own. Parts of a match may be lexed by themselves; they are always shorter than
the text that they come from.
-/

namespace CodeGroom.Grammar

/-- Lexes a text by itself from a stack of modes. -/
abbrev Inner := List Mode → Text → List Token

/-- The tokens of the parts of a match, the first of which starts at `p`. -/
def emit (inner : Inner) : List Part → List Place → Place → List Token
  | part :: parts, q :: qs, p =>
    let text := p.upTo q
    let here :=
      match part.action with
      | .drop => []
      | .token cls => if text = [] then [] else [⟨p.pos, cls, text⟩]
      | .lex stack => (inner stack text).map fun t => { t with start := p.pos + t.start }
    here ++ emit inner parts qs q
  | _, _, _ => []

/-- The first rule that matches at a place, and where its parts end. -/
def firstMatch (p : Place) : List Rule → Option (Rule × List Place)
  | [] => none
  | r :: rs =>
    match Rule.matchParts r.parts [] p with
    | some ends => some (r, ends)
    | none => firstMatch p rs

/-- Lexes from a place on in at most so many steps. -/
def scanFrom (grammar : Grammar) (inner : Inner) : Nat → List Mode → Place → List Token
  | 0, _, _ => []
  | n + 1, stack, p =>
    match p.rest with
    | [] => []
    | x :: rest =>
      match firstMatch p (grammar (stack.headD .root)) with
      | some (r, ends) =>
        emit inner r.parts ends p ++ scanFrom grammar inner n (r.moves.foldl Move.apply stack) (ends.getLastD p)
      | none =>
        if x = Text.lineFeed then ⟨p.pos, .whitespace, [x]⟩ :: scanFrom grammar inner n [.root] (p.advance x rest)
        else ⟨p.pos, .error, [x]⟩ :: scanFrom grammar inner n stack (p.advance x rest)

/-- A bound on the steps of lexing a text. A step that takes something opens at most two modes, and a step that takes nothing
closes one or is followed by a step that takes something. -/
def stepBound (t : Text) : Nat := 6 * t.length + 8

/-- Lexes a text, parts of matches included, to at most some depth. -/
def lexFor (grammar : Grammar) : Nat → Inner
  | 0, _, _ => []
  | n + 1, stack, t => grammar.scanFrom (lexFor grammar n) (stepBound t) stack { rest := t }

/-- The tokens of a text. -/
def lex (grammar : Grammar) (t : Text) : List Token := grammar.lexFor (t.length + 1) [.root] t

end CodeGroom.Grammar
