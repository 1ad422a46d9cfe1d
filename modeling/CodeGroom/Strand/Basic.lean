import CodeGroom.Lexeme.Basic

/-!
# Strands

A strand holds the lexemes of a source in the order of their creation and links each one to its neighbours in the order of the
source. A lexeme is named by its place of creation, so its name stays valid whatever is inserted later. `none` names no lexeme.
-/

namespace CodeGroom

/-- A lexeme with its neighbours in the source. -/
structure Cell where
  lexeme : Lexeme
  prev : Option Nat
  next : Option Nat
deriving DecidableEq, Repr

/-- The lexemes of a source, linked in its order. -/
structure Strand where
  language : String := "c"
  cells : Array Cell := #[]
  first : Option Nat := none
  last : Option Nat := none
deriving DecidableEq, Repr

namespace Strand

/-- The strand without lexemes. -/
def empty (language : String) : Strand := { language }

/-- How many lexemes there are. -/
def size (s : Strand) : Nat := s.cells.size

/-- The lexeme created last. -/
def newest (s : Strand) : Option Nat := if s.size = 0 then none else some (s.size - 1)

/-- The lexeme named `i`; the absent one where there is none. -/
def lexeme (s : Strand) (i : Option Nat) : Lexeme := ((i.bind (s.cells[·]?)).map (·.lexeme)).getD .absent

/-- The lexeme that follows lexeme `i`. -/
def nextOf (s : Strand) (i : Nat) : Option Nat := (s.cells[i]?).bind (·.next)

/-- The lexeme before lexeme `i`. -/
def prevOf (s : Strand) (i : Nat) : Option Nat := (s.cells[i]?).bind (·.prev)

/-- Changes lexeme `i`, if there is one, and no link. -/
def modify (s : Strand) (i : Nat) (f : Lexeme → Lexeme) : Strand :=
  { s with cells := s.cells.modify i fun c => { c with lexeme := f c.lexeme } }

/-- Changes the lexemes named in a list. -/
def modifyAll (s : Strand) (is : List Nat) (f : Lexeme → Lexeme) : Strand := is.foldl (fun s i => s.modify i f) s

/-- Makes `next` follow `prev`: a missing neighbour on one side makes the other one an end of the strand. -/
def joinLeft (s : Strand) (prev : Option Nat) (new : Nat) : Strand :=
  match prev with
  | none => { s with first := some new }
  | some p => { s with cells := s.cells.modify p fun c => { c with next := some new } }

/-- Makes `new` the lexeme before `next`, or the last one when there is no next. -/
def joinRight (s : Strand) (new : Nat) (next : Option Nat) : Strand :=
  match next with
  | none => { s with last := some new }
  | some n => { s with cells := s.cells.modify n fun c => { c with prev := some new } }

/-- Adds a lexeme between two neighbours. Its name is the size of the strand before. -/
def insertBetween (s : Strand) (prev next : Option Nat) (x : Lexeme) : Strand :=
  let new := s.size
  let s := { s with cells := s.cells.push ⟨x, prev, next⟩ }
  (s.joinLeft prev new).joinRight new next

/-- Adds a lexeme behind lexeme `i`. Behind no lexeme it goes where the newest one is and has no lexeme before it. -/
def insertAfter (s : Strand) (i : Option Nat) (x : Lexeme) : Strand :=
  s.insertBetween i ((i <|> s.newest).bind s.nextOf) x

/-- Adds a lexeme in front of lexeme `i`. In front of no lexeme it goes where the newest one is and has no lexeme behind it. -/
def insertBefore (s : Strand) (i : Option Nat) (x : Lexeme) : Strand :=
  s.insertBetween ((i <|> s.newest).bind s.prevOf) i x

/-- Adds a lexeme at the end. -/
def append (s : Strand) (x : Lexeme) : Strand :=
  match s.last with
  | none => s.insertBetween none none x
  | some i => s.insertAfter (some i) x

/-- The strand of some lexemes, in their order. -/
def ofLexemes (language : String) (xs : List Lexeme) : Strand := xs.foldl append (empty language)

end Strand

end CodeGroom
