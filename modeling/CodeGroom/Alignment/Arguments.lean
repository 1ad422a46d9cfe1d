import CodeGroom.Strand.Walk

/-!
# Arguments of a call

The first lexeme of each argument of a call, as far as the arguments stand on the line of their opening parenthesis.
-/

namespace CodeGroom.Strand

/-- Whether the list of arguments of a call at some depth stops in front of a lexeme. -/
def stopsArguments (depth : Int) (x : Lexeme) : Bool :=
  x.isNewline || x.kind = .semicolon || (x.kind = .closing .call && x.depth = depth)

/-- The first lexemes of the arguments along a path, for a call at some depth. `fresh` says that an argument starts here. -/
def argumentsOn (s : Strand) (depth : Int) : Bool → List Nat → List Nat
  | _, [] => []
  | fresh, i :: rest =>
    let x := s.lexeme (some i)
    if stopsArguments depth x then []
    else if x.depth = depth + 1 then
      if fresh then i :: s.argumentsOn depth false rest else s.argumentsOn depth (x.kind = .comma) rest
    else s.argumentsOn depth fresh rest

/-- The first lexeme of each argument of the call named by lexeme `i`. -/
def argumentStarts (s : Strand) (i : Option Nat) : List Nat :=
  let depth := (s.lexeme i).depth
  match s.nextOfKind i (.opening .call) (some depth) .everything with
  | none => []
  | some p => s.argumentsOn depth true (s.after p)

end CodeGroom.Strand
