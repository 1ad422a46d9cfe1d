import CodeGroom.Annotate.State

/-!
# Reading brackets

An opening bracket is put on top of those open already; a closing one takes the innermost bracket that it fits off, along with
whatever was left open inside. Whether `<` is a bracket is decided by looking ahead in the source.
-/

namespace CodeGroom.Annotator

/-- Reads an opening bracket. -/
def openBracket (src : Source) (bracket : Bracket) (start : Nat) (text : Text) (owner : Kind) (a : Annotator) : Annotator :=
  let id := a.lexemes.length
  let a := a.add src (.opening bracket) start text owner false
  { a with opened := ⟨id, bracket, owner⟩ :: a.opened }

/-- Reads a closing bracket. It closes the innermost open bracket that `fits`; where there is none it is a closing bracket of
shape `alone` and closes nothing. -/
def closeBracket (src : Source) (fits : Bracket → Bool) (alone : Bracket) (start : Nat) (text : Text) (a : Annotator) :
    Annotator :=
  match a.opened.dropWhile (!fits ·.bracket) with
  | [] => (a.note (.unmatchedCloser text (src.lineAt start))).addPlain src (.closing alone) start text
  | o :: rest =>
    let left := a.opened.length - (rest.length + 1)
    let a := if left = 0 then a else a.note (.unclosedOpeners left text (src.lineAt start))
    let a := { a with opened := rest, questions := a.questions.filter (· ≤ rest.length) }
    a.add src (.closing o.bracket) start text o.owner false

/-- Looks ahead for the `>` that closes the last of `angles` open angle brackets, `brackets` being the open round and square
ones: not behind a bracket that closes something outside, nor behind anything that ends an expression. -/
def angleCloses : Nat → Nat → Text → Bool
  | _, _, [] => false
  | _, _, .char '&' :: .char '&' :: _ => false
  | _, _, .char '|' :: .char '|' :: _ => false
  | angles, brackets, .char '-' :: .char '>' :: rest => angleCloses angles brackets rest
  | angles, brackets, x :: rest =>
    if x.isOneOf ";\x7b\x7d?" then false
    else if x.isOneOf "([" then angleCloses angles (brackets + 1) rest
    else if x.isOneOf ")]" then
      match brackets with
      | 0 => false
      | b + 1 => angleCloses angles b rest
    else if x = .char '<' ∧ brackets = 0 then angleCloses (angles + 1) brackets rest
    else if x = .char '>' ∧ brackets = 0 then
      match angles with
      | 0 => true
      | n + 1 => angleCloses n brackets rest
    else angleCloses angles brackets rest

/-- Whether the `<` at a place can be the bracket of template arguments. C has none. -/
def opensTemplate (src : Source) (start : Nat) : Bool :=
  src.language ≠ "c" && angleCloses 0 0 (src.text.drop (start + 1))

end CodeGroom.Annotator
