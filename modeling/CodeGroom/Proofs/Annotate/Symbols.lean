import CodeGroom.Layout.Render
import CodeGroom.Proofs.Annotate.Lossless
import CodeGroom.Proofs.Strand.Order

/-!
# The text that a strand spells

Every lexeme stands for its gap and its symbols, a line break for its gap and its line feeds. The strand that a source is read
into spells the source, whatever the classes of the tokens are, up to white space at the end of the last line.
-/

namespace CodeGroom

/-- The symbols that a lexeme stands for, without its gap: its text, or the line feeds of a line break. -/
def Lexeme.symbols (x : Lexeme) : Text := if x.isNewline then Text.copies x.breaks Text.lineFeed else x.text

/-- The gap of a lexeme and its symbols. -/
def Lexeme.spelled (x : Lexeme) : Text := x.gap ++ x.symbols

/-- What lexemes spell, one after another. -/
def spelling (xs : List Lexeme) : Text := xs.flatMap (·.spelled)

/-- Line breaks are told by their kind. -/
theorem Lexeme.isNewline_iff {x : Lexeme} : x.isNewline = true ↔ x.kind = .newline := by
  simp [isNewline]

theorem Lexeme.isNewline_eq_false {x : Lexeme} (h : x.kind ≠ .newline) : x.isNewline = false :=
  Bool.eq_false_iff.2 fun hnl => h (isNewline_iff.1 hnl)

/-- A line break stands for so many line feeds. -/
theorem Lexeme.symbols_of_newline {x : Lexeme} (h : x.kind = .newline) :
    x.symbols = Text.copies x.breaks Text.lineFeed := by
  rw [symbols, if_pos (isNewline_iff.2 h)]

/-- Any other lexeme stands for its text. -/
theorem Lexeme.symbols_of_ne_newline {x : Lexeme} (h : x.kind ≠ .newline) : x.symbols = x.text := by
  rw [symbols, if_neg fun hnl => h (isNewline_iff.1 hnl)]

@[simp] theorem spelling_nil : spelling [] = [] := rfl

@[simp] theorem spelling_cons (x : Lexeme) (xs : List Lexeme) : spelling (x :: xs) = x.spelled ++ spelling xs := rfl

@[simp] theorem spelling_append (xs ys : List Lexeme) : spelling (xs ++ ys) = spelling xs ++ spelling ys := List.flatMap_append

/-- A lexeme as reading makes them: line feeds stand in line breaks only, and a line break has at least one. -/
structure Lexeme.Sound (x : Lexeme) : Prop where
  gap : x.gap.IsGap
  breaks : x.kind = .newline → 1 ≤ x.breaks
  text : x.kind ≠ .newline → Text.lineFeed ∉ x.text

/-- A sound line break breaks a line at least once. -/
theorem Lexeme.Sound.exists_breaks {x : Lexeme} (hx : x.Sound) (hnl : x.kind = .newline) :
    ∃ k : Nat, x.breaks = ((k + 1 : Nat) : Int) := by
  have hbreaks := hx.breaks hnl
  exact ⟨(x.breaks - 1).toNat, by omega⟩

/-- What is spelled is the spelling of the lexemes, and they are sound. -/
theorem Spells.eq_spelling {tabSize : Int} {t : Text} {xs : List Lexeme} (h : Spells tabSize t xs) :
    t = spelling xs.reverse ∧ ∀ x ∈ xs, x.Sound := by
  induction h with
  | nil => exact ⟨rfl, by simp⟩
  | @word t xs x hxs hgap hk hlf hcol ih =>
    obtain ⟨ht, hall⟩ := ih
    refine ⟨?_, ?_⟩
    · rw [List.reverse_cons, spelling_append, ← ht, spelling_cons, spelling_nil, List.append_nil, Lexeme.spelled,
        Lexeme.symbols_of_ne_newline hk, List.append_assoc]
    · intro y hy
      rcases List.mem_cons.1 hy with rfl | hy
      · exact ⟨hgap, fun hnl => absurd hnl hk, fun _ => hlf⟩
      · exact hall y hy
  | @newline t xs x n hxs hgap hk hb ih =>
    obtain ⟨ht, hall⟩ := ih
    refine ⟨?_, ?_⟩
    · rw [List.reverse_cons, spelling_append, ← ht, spelling_cons, spelling_nil, List.append_nil, Lexeme.spelled,
        Lexeme.symbols_of_newline hk, hb, List.append_assoc]
      rfl
    · intro y hy
      rcases List.mem_cons.1 hy with rfl | hy
      · exact ⟨hgap, fun _ => by omega, fun hne => absurd hk hne⟩
      · exact hall y hy

/-- A source is read into the lexemes that were annotated, in their order. -/
theorem Source.lexemes_read (src : Source) (ts : List Token) : (src.read ts).lexemes = (src.annotate ts).lexemes.reverse :=
  Strand.map_lexeme_order_ofLexemes _ _

/-- A source whose tokens tile it is read into a strand that spells it: only white space behind the last lexeme of the last line
is left out, every gap is white space within a line, and line feeds stand in line breaks only. -/
theorem Source.spelling_read (src : Source) {ts : List Token} (h : Token.Tiles 0 src.text ts) :
    (src.read ts).WellLinked ∧ (∃ rest, src.text = spelling (src.read ts).lexemes ++ rest ∧ rest.IsGap) ∧
      ∀ x ∈ (src.read ts).lexemes, x.Sound := by
  obtain ⟨t, rest, htext, hrest, hspells⟩ := src.spells_annotate h
  obtain ⟨ht, hsound⟩ := hspells.eq_spelling
  refine ⟨Strand.wellLinked_ofLexemes _ _, ⟨rest, ?_, hrest⟩, ?_⟩
  · rw [lexemes_read, ← ht]
    exact htext
  · intro x hx
    rw [lexemes_read] at hx
    exact hsound x (List.mem_reverse.1 hx)

namespace SymbolsAux

/-- A source with an empty line, a directive over two lines, a name with a scope and a blank at its end. -/
def branchedSource : Source := { text := Text.ofString "x +\n\n#if a \\\n b\nc::d ", language := "cpp" }

/-- The tokens of that source. -/
def branchedTokens : List Token :=
  [⟨0, .name, Text.ofString "x"⟩, ⟨1, .text, Text.ofString " "⟩, ⟨2, .operator, Text.ofString "+"⟩,
    ⟨3, .text, Text.ofString "\n\n"⟩, ⟨5, .directive, Text.ofString "#if a \\\n b\n"⟩, ⟨16, .name, Text.ofString "c::d"⟩,
    ⟨20, .text, Text.ofString " "⟩]

end SymbolsAux

open SymbolsAux in
/-- So it is for a source with a directive that has two branches. -/
theorem Source.spelling_read_branched : Token.Tiles 0 branchedSource.text branchedTokens ∧
    (branchedSource.read branchedTokens).WellLinked ∧
      (∃ rest, branchedSource.text = spelling (branchedSource.read branchedTokens).lexemes ++ rest ∧ rest.IsGap) ∧
      ∀ x ∈ (branchedSource.read branchedTokens).lexemes, x.Sound :=
  ⟨by decide, branchedSource.spelling_read (by decide)⟩

end CodeGroom
