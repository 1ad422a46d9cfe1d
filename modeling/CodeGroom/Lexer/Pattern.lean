import CodeGroom.Text.CharClass

/-!
# Patterns

Patterns describe pieces of text. A pattern is matched from a place on; where several matches exist they are tried in a fixed
order, the left side of a choice first and a repetition as long (or, if lazy, as short) as possible first, and the first one
after which the rest can match as well is taken.
-/

namespace CodeGroom

/-- A place in a text: its position, the symbol in front of it, and the text behind it. -/
structure Place where
  pos : Nat := 0
  before : Option Symbol := none
  rest : Text
deriving DecidableEq, Repr

/-- The place one symbol further on. -/
def Place.advance (p : Place) (x : Symbol) (rest : Text) : Place := { pos := p.pos + 1, before := some x, rest }

/-- The text between a place and a later one. -/
def Place.upTo (p q : Place) : Text := p.rest.take (q.pos - p.pos)

/-- A description of pieces of text: nothing, one symbol of a class, a test of the symbols on both sides of a place, one pattern
and then another, a choice, a repetition, or a look ahead that takes nothing. -/
inductive Pattern where
  | nothing
  | one (p : Symbol → Bool)
  | edge (p : Option Symbol → Option Symbol → Bool)
  | seq (a b : Pattern)
  | alt (a b : Pattern)
  | repeated (greedy : Bool) (a : Pattern)
  | ahead (wanted : Bool) (a : Pattern)

namespace Pattern

/-- What is to be matched behind a place: the places that end the parts of the match, if it can. -/
abbrev Rest := Place → Option (List Place)

/-- Repeats a match at most so many times, each time going forward. -/
def repeatFor (greedy : Bool) (body : Place → Rest → Option (List Place)) : Nat → Place → Rest → Option (List Place)
  | 0, p, k => k p
  | n + 1, p, k =>
    let again (_ : Unit) := body p fun q => if q.pos ≤ p.pos then none else repeatFor greedy body n q k
    if greedy then
      match again () with
      | some r => some r
      | none => k p
    else
      match k p with
      | some r => some r
      | none => again ()

/-- Matches a pattern and goes on behind it; where that fails, with the next match of the pattern. -/
def run : Pattern → Place → Rest → Option (List Place)
  | nothing, p, k => k p
  | one f, p, k =>
    match p.rest with
    | [] => none
    | x :: rest => if f x then k (p.advance x rest) else none
  | edge f, p, k => if f p.before p.rest.head? then k p else none
  | seq a b, p, k => a.run p fun q => b.run q k
  | alt a b, p, k =>
    match a.run p k with
    | some r => some r
    | none => b.run p k
  | repeated greedy a, p, k => repeatFor greedy (fun p k => a.run p k) p.rest.length p k
  | ahead wanted a, p, k => if (a.run p fun _ => some []).isSome = wanted then k p else none

instance : Append Pattern := ⟨seq⟩

instance : OrElse Pattern := ⟨fun a b => alt a (b ())⟩

/-- Exactly these symbols. -/
def exactly : Text → Pattern
  | [] => nothing
  | x :: xs => seq (one (· = x)) (exactly xs)

/-- Exactly these characters. -/
def lit (s : String) : Pattern := exactly (Text.ofString s)

/-- Whether a symbol is one of some characters. -/
def among (cs : List Char) : Symbol → Bool
  | .char c => cs.contains c
  | .byte _ => false

/-- One of these characters. -/
def oneOf (s : String) : Pattern :=
  let cs := s.toList
  one (among cs)

/-- One symbol that is none of these characters. -/
def noneOf (s : String) : Pattern :=
  let cs := s.toList
  one (!among cs ·)

/-- Any symbol. -/
def any : Pattern := one fun _ => true

/-- Any symbol but a line feed. -/
def inLine : Pattern := noneOf "\n"

/-- White space. -/
def blank : Pattern := one (·.isBlank)

/-- A decimal digit. -/
def digit : Pattern := one (·.isDigit)

/-- A symbol of a word. -/
def wordSymbol : Pattern := one (·.isWord)

/-- A pattern or nothing. -/
def opt (a : Pattern) : Pattern := alt a nothing

/-- A pattern any number of times. -/
def many (a : Pattern) : Pattern := repeated true a

/-- A pattern at least once. -/
def some1 (a : Pattern) : Pattern := seq a (many a)

/-- A pattern any number of times, as few as possible. -/
def fewest (a : Pattern) : Pattern := repeated false a

/-- A pattern at least `least` and at most `least + extra` times. -/
def times (a : Pattern) : (least extra : Nat) → Pattern
  | 0, 0 => nothing
  | 0, n + 1 => alt (seq a (times a 0 n)) nothing
  | m + 1, n => seq a (times a m n)

/-- The first of some patterns that matches. -/
def firstOf : List Pattern → Pattern
  | [] => one fun _ => false
  | [a] => a
  | a :: as => alt a (firstOf as)

/-- A place where a pattern matches next. -/
def followedBy (a : Pattern) : Pattern := ahead true a

/-- A place where a pattern does not match next. -/
def notFollowedBy (a : Pattern) : Pattern := ahead false a

/-- The start of a line. -/
def lineStart : Pattern := edge fun before _ => before.all (· = Text.lineFeed)

/-- A place between a symbol of a word and something else. -/
def wordEdge : Pattern := edge fun before next => before.any (·.isWord) != next.any (·.isWord)

/-- A place behind a character. -/
def behind (c : Char) : Pattern := edge fun before _ => before = some (.char c)

/-- A place that is not behind a character. -/
def notBehind (c : Char) : Pattern := edge fun before _ => before ≠ some (.char c)

/-- One of some words, each of them whole. -/
def words (ws : List String) : Pattern := seq (firstOf (ws.map lit)) wordEdge

end Pattern

end CodeGroom
