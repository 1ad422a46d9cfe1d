import CodeGroom.Strand.Basic

/-!
# Walking along a strand

What lies ahead of a lexeme and behind it, all of it or without the directives, and the first lexeme there that is not skipped.
A walk from inside a directive stays in its unbroken run of directive lexemes; a walk from outside sees none of them.
-/

namespace CodeGroom

/-- How far a walk sees: everything, or only what is on the same side of the directives as its start. -/
inductive Scope where
  | everything
  | sameSide
deriving DecidableEq, Repr, Inhabited

/-- What a walk passes over: nothing, comments, or comments and line breaks. -/
inductive Skip where
  | nothing
  | comments
  | layout
deriving DecidableEq, Repr, Inhabited

/-- Whether a walk passes over a lexeme. -/
def Skip.passes : Skip → Lexeme → Bool
  | nothing, _ => false
  | comments, x => x.isComment
  | layout, x => x.isComment || x.isNewline

namespace Strand

/-- At most `n` lexemes from `i` on, each one step further than the one before. -/
def follow (step : Nat → Option Nat) : Nat → Option Nat → List Nat
  | 0, _ => []
  | _ + 1, none => []
  | n + 1, some i => i :: follow step n (step i)

/-- The names of all lexemes in the order of the source. -/
def order (s : Strand) : List Nat := follow s.nextOf s.size s.first

/-- The lexemes behind lexeme `i` in the source, nearest first. -/
def after (s : Strand) (i : Nat) : List Nat := follow s.nextOf s.size (s.nextOf i)

/-- The lexemes in front of lexeme `i` in the source, nearest first. -/
def before (s : Strand) (i : Nat) : List Nat := follow s.prevOf s.size (s.prevOf i)

/-- Whether lexeme `i` belongs to a directive. -/
def inDirective (s : Strand) (i : Nat) : Bool := (s.lexeme (some i)).inDirective

/-- The part of a walk that its scope leaves, for a start inside or outside a directive. -/
def restrict (s : Strand) (scope : Scope) (inside : Bool) (path : List Nat) : List Nat :=
  match scope, inside with
  | .everything, _ => path
  | .sameSide, true => path.takeWhile s.inDirective
  | .sameSide, false => path.filter (!s.inDirective ·)

/-- What a walk forward from `i` sees. -/
def ahead (s : Strand) (scope : Scope) : Option Nat → List Nat
  | none => []
  | some i => s.restrict scope (s.inDirective i) (s.after i)

/-- What a walk backward from `i` sees. -/
def behind (s : Strand) (scope : Scope) : Option Nat → List Nat
  | none => []
  | some i => s.restrict scope (s.inDirective i) (s.before i)

/-- The next lexeme that is not skipped. -/
def next (s : Strand) (skip : Skip) (scope : Scope) (i : Option Nat) : Option Nat :=
  (s.ahead scope i).find? fun j => !skip.passes (s.lexeme (some j))

/-- The lexeme before that is not skipped. -/
def prev (s : Strand) (skip : Skip) (scope : Scope) (i : Option Nat) : Option Nat :=
  (s.behind scope i).find? fun j => !skip.passes (s.lexeme (some j))

/-- The next code or directive lexeme. -/
def nextCode (s : Strand) (i : Option Nat) : Option Nat := s.next .layout .everything i

/-- The next lexeme of a kind, at a depth if one is given. -/
def nextOfKind (s : Strand) (i : Option Nat) (kind : Kind) (depth : Option Int) (scope : Scope) : Option Nat :=
  (s.ahead scope i).find? fun j =>
    let x := s.lexeme (some j)
    x.kind = kind && depth.all (x.depth = ·)

/-- The bracket that closes lexeme `i`: the next closing bracket of its shape at its depth. -/
def partner (s : Strand) (i : Option Nat) : Option Nat :=
  let x := s.lexeme i
  x.kind.closer?.bind fun k => s.nextOfKind i k (some x.depth) .everything

/-- The lexemes behind `first` and in front of `last`; to the end when `last` does not follow. -/
def between (s : Strand) (first last : Option Nat) : List Nat :=
  (s.ahead .everything first).takeWhile fun j => some j ≠ last

/-- The first directive lexeme between two lexemes. -/
def directiveBetween (s : Strand) (first last : Option Nat) : Option Nat := (s.between first last).find? s.inDirective

/-- The lexeme itself and everything behind it. -/
def onward (s : Strand) : Option Nat → List Nat
  | none => []
  | some i => i :: s.after i

/-- The text of all lexemes, without the gaps between them. -/
def text (s : Strand) : Text := s.order.flatMap fun i => (s.lexeme (some i)).text

end Strand

end CodeGroom
