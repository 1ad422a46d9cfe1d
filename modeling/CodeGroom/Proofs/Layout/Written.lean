import CodeGroom.Proofs.Annotate.Symbols
import CodeGroom.Proofs.Layout.Spelled

/-!
# What is written

A ruling with tab stops never fails to write lexemes. What it writes is a function of them and of the column that it starts at:
each lexeme as a gap and its symbols. The gap is white space on one line, so the symbols of the lexemes are all that is written
besides white space.
-/

namespace CodeGroom

/-- The lexeme apart from its depth. -/
def Lexeme.flat (x : Lexeme) : Lexeme := { x with depth := 0 }

namespace Ruling

variable (r : Ruling)

/-- The white space from one column to a later one: blanks, or tabs as far as possible in an indentation with tabs. -/
def filling (start stop : Int) : Text :=
  if start = 1 && r.indentWithTabs then
    Text.copies ((stop - start).fdiv r.tabSize) Text.tab ++ Text.copies ((stop - start).fmod r.tabSize) (.char ' ')
  else Text.copies (stop - start) (.char ' ')

/-- Whether a gap from the source is written as it is in front of a lexeme, from a column on. -/
def keeps (start : Int) (x : Lexeme) : Bool :=
  x.gap ≠ [] && Text.advance r.tabSize start x.gap = x.column && !(start = 1 && r.indentWithTabs)

/-- The gap written in front of a lexeme from a column on. A line break has the gap that it has in the source. -/
def gapBefore (start : Int) (x : Lexeme) : Text :=
  if x.isNewline || r.keeps start x then x.gap
  else if start < x.column then r.filling start x.column
  else []

/-- The column behind a lexeme written from a column on. -/
def columnBehind (start : Int) (x : Lexeme) : Int :=
  if x.isNewline then 1
  else Text.advance r.tabSize (if r.keeps start x then x.column else max start x.column) x.text

/-- What is written of lexemes from a column on. -/
def written : Int → List Lexeme → Text
  | _, [] => []
  | start, x :: xs => r.gapBefore start x ++ x.symbols ++ written (r.columnBehind start x) xs

/-- What is written does not depend on depths. -/
theorem written_map_flat (start : Int) (xs : List Lexeme) : r.written start (xs.map Lexeme.flat) = r.written start xs := by
  induction xs generalizing start with
  | nil => rfl
  | cons x xs ih =>
    rw [List.map_cons, written, written, ih]
    rfl

end Ruling

namespace Page

variable {r : Ruling} {p : Page} {x : Lexeme}

/-- The gap in front of a lexeme is written, and brings the page to the lexeme's column if that is not passed already. -/
theorem exists_writeGap (hr : r.tabSize ≠ 0) (p : Page) (hx : x.isNewline = false) :
    ∃ q, p.writeGap r x.column x.gap = .ok q ∧ q.finished = p.finished ∧ q.current = p.current ++ r.gapBefore p.column x ∧
      q.column = if r.keeps p.column x then x.column else max p.column x.column := by
  have hkeeps : p.keepsGap r x.column x.gap = .ok (r.keeps p.column x) := by
    by_cases hgap : x.gap = []
    · simp [keepsGap, Ruling.keeps, hgap]
    · simp [keepsGap, columnAfter_eq hr, Ruling.keeps, hgap, indentsWithTabs, bind, Except.bind, pure, Except.pure]
  unfold writeGap Ruling.gapBefore
  simp only [hkeeps, hx, bind, Except.bind, Bool.false_or]
  cases hkept : r.keeps p.column x with
  | true => exact ⟨_, rfl, rfl, rfl, rfl⟩
  | false =>
    simp only [Bool.false_eq_true, if_false]
    by_cases hlt : p.column < x.column
    · have hfill : p.fill r x.column =
          .ok { p with current := p.current ++ r.filling p.column x.column, column := x.column } := by
        unfold fill Ruling.filling indentsWithTabs
        split_ifs <;> rfl
      rw [if_pos hlt, if_pos hlt, hfill]
      exact ⟨_, rfl, rfl, rfl, (Int.max_eq_right (Int.le_of_lt hlt)).symm⟩
    · rw [if_neg hlt, if_neg hlt]
      exact ⟨p, rfl, rfl, (List.append_nil _).symm, (Int.max_eq_left (Int.not_lt.1 hlt)).symm⟩

/-- Writing a lexeme adds its gap and its symbols, if a line break has some. -/
theorem exists_put (hr : r.tabSize ≠ 0) (p : Page) (hx : x.kind = .newline → 1 ≤ x.breaks) : ∃ q, p.put r x = .ok q ∧
    Text.unlines q.lines = Text.unlines p.lines ++ (r.gapBefore p.column x ++ x.symbols) ∧
      q.column = r.columnBehind p.column x := by
  unfold put
  cases hnl : x.isNewline with
  | true =>
    have hkind := Lexeme.isNewline_iff.1 hnl
    obtain ⟨n, hn⟩ : ∃ n : Nat, x.breaks = ((n + 1 : Nat) : Int) := by
      have hbreaks := hx hkind
      exact ⟨(x.breaks - 1).toNat, by omega⟩
    refine ⟨_, rfl, ?_, ?_⟩
    · rw [hn, unlines_newLine, Ruling.gapBefore, hnl, Bool.true_or, if_pos rfl, Lexeme.symbols_of_newline hkind, hn,
        List.append_assoc]
      rfl
    · rw [hn, column_newLine, Ruling.columnBehind, hnl, if_pos rfl]
  | false =>
    obtain ⟨q, hwrite, hfinished, hcurrent, hcolumn⟩ := exists_writeGap hr p hnl
    have hsymbols : x.symbols = x.text := by rw [Lexeme.symbols, hnl, if_neg Bool.false_ne_true]
    refine ⟨{ q with current := q.current ++ x.text, column := Text.advance r.tabSize q.column x.text }, ?_, ?_, ?_⟩
    · simp [write, hwrite, columnAfter_eq hr, bind, Except.bind, pure, Except.pure]
    · rw [lines, lines, hfinished, hcurrent, hsymbols, List.append_assoc, Text.unlines_concat_append]
    · rw [Ruling.columnBehind, hnl, if_neg Bool.false_ne_true, ← hcolumn]

/-- Lexemes are written one after another. -/
theorem exists_putAll (hr : r.tabSize ≠ 0) {xs : List Lexeme} (hxs : ∀ x ∈ xs, x.kind = .newline → 1 ≤ x.breaks) (p : Page) :
    ∃ q, p.putAll r xs = .ok q ∧ Text.unlines q.lines = Text.unlines p.lines ++ r.written p.column xs := by
  induction xs generalizing p with
  | nil => exact ⟨p, rfl, (List.append_nil _).symm⟩
  | cons x xs ih =>
    obtain ⟨q, hput, hq, hcolumn⟩ := exists_put hr p (hxs x List.mem_cons_self)
    obtain ⟨q', hputAll, hq'⟩ := ih (fun y hy => hxs y (List.mem_cons_of_mem _ hy)) q
    refine ⟨q', ?_, ?_⟩
    · simp only [putAll, hput, bind, Except.bind]
      exact hputAll
    · rw [hq', hq, hcolumn, Ruling.written, List.append_assoc]

end Page

/-- A strand is written as what its lexemes are written as from the first column on, if every line break has a line feed. -/
theorem Strand.render_eq_of_breaks {r : Ruling} (hr : r.tabSize ≠ 0) {s : Strand}
    (hs : ∀ x ∈ s.lexemes, x.kind = .newline → 1 ≤ x.breaks) : s.render r = .ok (r.written 1 s.lexemes) := by
  obtain ⟨q, hput, hq⟩ := Page.exists_putAll hr hs {}
  rw [Strand.render, hput]
  exact congrArg Except.ok hq

/-- Lexemes as reading makes them have such line breaks. -/
theorem Strand.render_eq {r : Ruling} (hr : r.tabSize ≠ 0) {s : Strand} (hs : ∀ x ∈ s.lexemes, x.Sound) :
    s.render r = .ok (r.written 1 s.lexemes) :=
  render_eq_of_breaks hr fun x hx => (hs x hx).breaks

end CodeGroom
