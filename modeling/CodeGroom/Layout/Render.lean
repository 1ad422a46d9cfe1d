import CodeGroom.Layout.Page
import CodeGroom.Strand.Walk

/-!
# Writing a strand

The text of a strand: each lexeme at its column, each line break as many line feeds as it stands for.
-/

namespace CodeGroom

/-- Puts a lexeme on the page. -/
def Page.put (r : Ruling) (p : Page) (x : Lexeme) : Except Fault Page :=
  if x.isNewline then .ok (p.newLine x.breaks x.gap) else p.write r x.column x.text x.gap

/-- Puts lexemes on the page in their order. -/
def Page.putAll (r : Ruling) : Page → List Lexeme → Except Fault Page
  | p, [] => .ok p
  | p, x :: xs => do
    let p ← p.put r x
    p.putAll r xs

/-- The lexemes of a strand in the order of the source. -/
def Strand.lexemes (s : Strand) : List Lexeme := s.order.map fun i => s.lexeme (some i)

/-- The text of a strand, laid out by the columns of its lexemes. -/
def Strand.render (s : Strand) (r : Ruling) : Except Fault Text :=
  (Page.putAll r {} s.lexemes).map fun p => Text.unlines p.lines

end CodeGroom
