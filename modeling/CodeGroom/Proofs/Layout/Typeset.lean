import CodeGroom.Proofs.Layout.Written
import Mathlib.Algebra.Ring.Int.Defs

/-!
# Columns of what is written

Every lexeme is written at its column, or directly behind what stands in front of it on its line if that reaches further. It makes
no difference whether the gap in front of it is kept from the source or filled with tabs and blanks, and where the tabs of earlier
lexemes lead to: what counts is the column that a reader of the text sees.
-/

namespace CodeGroom

namespace Text

/-- The column behind a line that a reader sees, counted from 1: a tab goes on to the next tab stop, and tab stops stand `tabSize`
columns apart from the first column on. -/
def visualColumn (tabSize : Int) (l : Text) : Int :=
  l.foldl (fun column x => if x = tab then ((column - 1) / tabSize + 1) * tabSize + 1 else column + 1) 1

/-- The writer counts columns as the reader of the text sees them. -/
theorem visualColumn_eq_advance {tabSize : Int} (hpos : 1 ≤ tabSize) (l : Text) : visualColumn tabSize l = advance tabSize 1 l := by
  have hstep : ∀ (column : Int) (x : Symbol),
      (if x = tab then ((column - 1) / tabSize + 1) * tabSize + 1 else column + 1) = advanceStep tabSize column x := by
    intro column x
    have hdiv := Int.emod_add_ediv_mul (column - 1) tabSize
    rw [advanceStep, Int.fmod_eq_emod_of_nonneg _ (by omega), Int.add_mul, Int.one_mul]
    split_ifs <;> omega
  rw [visualColumn, advance]
  congr 1
  funext column x
  exact hstep column x

/-- A text without a line feed is seen to reach as far as the writer counts. -/
theorem visualColumn_lastLine_append {tabSize : Int} (hpos : 1 ≤ tabSize) (t : Text) {u : Text} (hu : lineFeed ∉ u) :
    visualColumn tabSize (lastLine (t ++ u)) = advance tabSize (visualColumn tabSize (lastLine t)) u := by
  rw [lastLine_append hu, visualColumn_eq_advance hpos, visualColumn_eq_advance hpos, advance_append]

end Text

/-- A lexeme as it can be put at a column: line feeds stand in line breaks only, which have one at least. -/
structure Lexeme.Printable (x : Lexeme) : Prop where
  gap : Text.lineFeed ∉ x.gap
  text : x.kind ≠ .newline → Text.lineFeed ∉ x.text
  breaks : x.kind = .newline → 1 ≤ x.breaks

instance (x : Lexeme) : Decidable x.Printable :=
  decidable_of_iff (Text.lineFeed ∉ x.gap ∧ (x.kind ≠ .newline → Text.lineFeed ∉ x.text) ∧ (x.kind = .newline → 1 ≤ x.breaks))
    ⟨fun ⟨hgap, htext, hbreaks⟩ => ⟨hgap, htext, hbreaks⟩, fun ⟨hgap, htext, hbreaks⟩ => ⟨hgap, htext, hbreaks⟩⟩

/-- Neither its own gap nor one of tabs and blanks takes a lexeme to another line. -/
theorem Lexeme.Printable.notMem_gap {x : Lexeme} (hx : x.Printable) {gap : Text}
    (h : gap = x.gap ∨ ∀ b ∈ gap, b = .char ' ' ∨ b = Text.tab) : Text.lineFeed ∉ gap := by
  rcases h with rfl | hblanks
  · exact hx.gap
  · intro hmem
    rcases hblanks _ hmem with h | h <;> cases h

/-- What lexemes are written as: each one behind its gap or behind tabs and blanks, at its column or at the one that the line reaches
to, whichever is further; each line break as its gap and its line feeds. -/
inductive Typeset (tabSize : Int) : List Lexeme → Text → Prop where
  | nil : Typeset tabSize [] []
  | word {xs : List Lexeme} {t : Text} {x : Lexeme} (gap : Text) :
      Typeset tabSize xs t → x.kind ≠ .newline → (gap = x.gap ∨ ∀ b ∈ gap, b = .char ' ' ∨ b = Text.tab) →
      Text.visualColumn tabSize (Text.lastLine (t ++ gap)) = max x.column (Text.visualColumn tabSize (Text.lastLine t)) →
      Typeset tabSize (xs ++ [x]) (t ++ gap ++ x.text)
  | lineBreak {xs : List Lexeme} {t : Text} {x : Lexeme} :
      Typeset tabSize xs t → x.kind = .newline → Typeset tabSize (xs ++ [x]) (t ++ x.gap ++ Text.copies x.breaks Text.lineFeed)

namespace Ruling

variable {r : Ruling} {x : Lexeme} {start stop : Int}

theorem mem_filling {b : Symbol} (h : b ∈ r.filling start stop) : b = .char ' ' ∨ b = Text.tab := by
  have hcopies : ∀ {n : Int} {y : Symbol}, b ∈ Text.copies n y → b = y := List.eq_of_mem_replicate
  unfold filling at h
  split_ifs at h
  · rcases List.mem_append.1 h with h | h
    · exact .inr (hcopies h)
    · exact .inl (hcopies h)
  · exact .inl (hcopies h)

/-- Filling ends at the column that it is to end at. -/
theorem advance_filling (hpos : 1 ≤ r.tabSize) (h : start ≤ stop) : Text.advance r.tabSize start (r.filling start stop) = stop := by
  have hblanks : ∀ (column n : Int), 0 ≤ n → Text.advance r.tabSize column (Text.copies n (.char ' ')) = column + n := by
    intro column n hn
    have htab : Text.tab ∉ Text.copies n (.char ' ') := by
      intro hmem
      exact absurd (List.eq_of_mem_replicate hmem) (by decide)
    rw [Text.advance_of_tab_notMem htab, Text.copies, List.length_replicate, Int.toNat_of_nonneg hn]
  unfold filling
  split_ifs with hindent
  · -- From the first column on every tab takes the whole distance, and blanks take what is left.
    simp only [Bool.and_eq_true, decide_eq_true_eq] at hindent
    obtain ⟨rfl, -⟩ := hindent
    have hquot : 0 ≤ (stop - 1).fdiv r.tabSize := Int.fdiv_nonneg (by omega) (by omega)
    have hrest : 0 ≤ (stop - 1).fmod r.tabSize := Int.fmod_nonneg_of_pos _ (by omega)
    have hdiv := Int.fmod_add_fdiv_mul (stop - 1) r.tabSize
    have htabs := Text.advance_tabs r.tabSize ((stop - 1).fdiv r.tabSize).toNat 0
    rw [Int.zero_mul, Int.zero_add, Int.zero_add, Int.toNat_of_nonneg hquot] at htabs
    rw [Text.advance_append, Text.copies, htabs, hblanks _ _ hrest]
    omega
  · rw [hblanks _ _ (by omega)]
    omega

/-- A gap that is kept ends at the column of its lexeme. -/
theorem advance_of_keeps (h : r.keeps start x = true) : Text.advance r.tabSize start x.gap = x.column := by
  simp only [keeps, Bool.and_eq_true, decide_eq_true_eq] at h
  exact h.1.2

/-- The gap in front of a lexeme is its own or one of tabs and blanks, and ends at the column of the lexeme if that is not passed. -/
theorem gapBefore_of_ne_newline (hpos : 1 ≤ r.tabSize) (hx : x.kind ≠ .newline) (start : Int) :
    (r.gapBefore start x = x.gap ∨ ∀ b ∈ r.gapBefore start x, b = .char ' ' ∨ b = Text.tab) ∧
      Text.advance r.tabSize start (r.gapBefore start x) = max x.column start := by
  unfold gapBefore
  rw [Lexeme.isNewline_eq_false hx, Bool.false_or]
  split_ifs with hkeeps hlt
  · have hle := Text.le_advance hpos start x.gap
    rw [advance_of_keeps hkeeps] at hle ⊢
    exact ⟨.inl rfl, (Int.max_eq_left hle).symm⟩
  · refine ⟨.inr fun b hb => mem_filling hb, ?_⟩
    rw [advance_filling hpos (Int.le_of_lt hlt), Int.max_eq_left (Int.le_of_lt hlt)]
  · exact ⟨.inr (by simp), (Int.max_eq_right (Int.not_lt.1 hlt)).symm⟩

/-- Behind a lexeme the writer is at the column that its gap and its text lead to. -/
theorem columnBehind_eq_advance (hpos : 1 ≤ r.tabSize) (hx : x.kind ≠ .newline) (start : Int) :
    r.columnBehind start x = Text.advance r.tabSize start (r.gapBefore start x ++ x.text) := by
  rw [Text.advance_append, (gapBefore_of_ne_newline hpos hx start).2, columnBehind, Lexeme.isNewline_eq_false hx,
    if_neg Bool.false_ne_true]
  split_ifs with hkeeps
  · have hle := Text.le_advance hpos start x.gap
    rw [advance_of_keeps hkeeps] at hle
    rw [Int.max_eq_left hle]
  · rw [Int.max_comm]

end Ruling

namespace Typeset

variable {r : Ruling} {xs ys : List Lexeme} {t : Text}

/-- What is written behind lexemes continues what they are written as. -/
theorem written (hpos : 1 ≤ r.tabSize) (hys : ∀ y ∈ ys, y.Printable) (h : Typeset r.tabSize xs t) :
    Typeset r.tabSize (xs ++ ys) (t ++ r.written (Text.visualColumn r.tabSize (Text.lastLine t)) ys) := by
  induction ys generalizing xs t with
  | nil => simpa [Ruling.written] using h
  | cons y ys ih =>
    have hy := hys y List.mem_cons_self
    have hrest := fun u hu => hys u (List.mem_cons_of_mem _ hu)
    obtain ⟨start, hstart⟩ : ∃ start, start = Text.visualColumn r.tabSize (Text.lastLine t) := ⟨_, rfl⟩
    rw [← hstart, Ruling.written]
    by_cases hnl : y.kind = .newline
    · obtain ⟨n, hn⟩ : ∃ n : Nat, y.breaks = ((n + 1 : Nat) : Int) := by
        have hbreaks := hy.breaks hnl
        exact ⟨(y.breaks - 1).toNat, by omega⟩
      have hnext := ih hrest (h.lineBreak hnl)
      have hcolumn : Text.visualColumn r.tabSize (Text.lastLine (t ++ y.gap ++ Text.copies y.breaks Text.lineFeed)) =
          r.columnBehind start y := by
        rw [hn, Text.copies, Int.toNat_natCast, List.replicate_succ', ← List.append_assoc, Text.lastLine_append_lineFeed,
          Ruling.columnBehind, if_pos (Lexeme.isNewline_iff.2 hnl)]
        rfl
      rw [hcolumn] at hnext
      simpa [Ruling.gapBefore, Lexeme.isNewline_iff.2 hnl, Lexeme.symbols_of_newline hnl] using hnext
    · obtain ⟨hgap, hadvance⟩ := Ruling.gapBefore_of_ne_newline hpos hnl start
      have hgapline := hy.notMem_gap hgap
      have hline : Text.lineFeed ∉ r.gapBefore start y ++ y.text := by
        rw [List.mem_append, not_or]
        exact ⟨hgapline, hy.text hnl⟩
      have hcolumn : Text.visualColumn r.tabSize (Text.lastLine (t ++ r.gapBefore start y)) =
          max y.column (Text.visualColumn r.tabSize (Text.lastLine t)) := by
        rw [Text.visualColumn_lastLine_append hpos t hgapline, ← hstart, hadvance]
      have hbehind : Text.visualColumn r.tabSize (Text.lastLine (t ++ r.gapBefore start y ++ y.text)) =
          r.columnBehind start y := by
        rw [List.append_assoc, Text.visualColumn_lastLine_append hpos t hline, ← hstart, Ruling.columnBehind_eq_advance hpos hnl]
      have hnext := ih hrest (h.word _ hnl hgap hcolumn)
      rw [hbehind] at hnext
      simpa [Lexeme.symbols_of_ne_newline hnl] using hnext

/-- Line feeds are those of the line breaks. -/
theorem count_lineFeed {tabSize : Int} (h : Typeset tabSize xs t) (hxs : ∀ x ∈ xs, x.Printable) :
    (t.count Text.lineFeed : Int) = ((xs.filter (·.isNewline)).map (·.breaks)).sum := by
  induction h with
  | nil => rfl
  | @word xs t x gap _ hkind hgap _ ih =>
    have hx := hxs x (List.mem_append_right _ List.mem_cons_self)
    have hrest := ih fun y hy => hxs y (List.mem_append_left _ hy)
    rw [List.count_append, List.count_append, List.count_eq_zero.2 (hx.notMem_gap hgap), List.count_eq_zero.2 (hx.text hkind),
      List.filter_append, List.filter_cons_of_neg (by simp [Lexeme.isNewline_eq_false hkind])]
    simpa using hrest
  | @lineBreak xs t x _ hkind ih =>
    have hx := hxs x (List.mem_append_right _ List.mem_cons_self)
    have hrest := ih fun y hy => hxs y (List.mem_append_left _ hy)
    have hbreaks := hx.breaks hkind
    rw [List.count_append, List.count_append, List.count_eq_zero.2 hx.gap, Text.copies, List.count_replicate_self, List.filter_append,
      List.filter_cons_of_pos (Lexeme.isNewline_iff.2 hkind), List.map_append, List.sum_append, ← hrest]
    simp only [List.filter_nil, List.map_cons, List.map_nil, List.sum_cons, List.sum_nil]
    omega

end Typeset

/-- Whatever the columns and gaps of its lexemes are, a strand is written with each lexeme at its column, or where its line reaches to
if that is further, and with one line more than its line breaks have line feeds. -/
theorem Strand.typeset_render {s : Strand} {r : Ruling} (hpos : 1 ≤ r.tabSize) (hs : ∀ x ∈ s.lexemes, x.Printable) :
    ∃ t, s.render r = .ok t ∧ Typeset r.tabSize s.lexemes t ∧
      (t.lines.length : Int) = 1 + ((s.lexemes.filter (·.isNewline)).map (·.breaks)).sum := by
  have hwritten := Typeset.nil.written hpos hs
  refine ⟨_, render_eq_of_breaks (by omega) fun x hx => (hs x hx).breaks, hwritten, ?_⟩
  rw [Text.length_lines, Int.natCast_succ, Int.add_comm]
  exact congrArg (1 + ·) (hwritten.count_lineFeed hs)

namespace TypesetAux

/-- A page that is indented with tabs. -/
def tabbed : Ruling := { tabSize := 4, indentWithTabs := true }

/-- Lexemes with a tab inside a text, a column that is passed already, a gap that ends at its column and one that does not. -/
def sheet : Strand := .ofLexemes "c"
  [{ kind := .word, text := Text.ofString "ab", column := 6, gap := Text.ofString "  " },
    { kind := .string, text := Text.ofString "'\t'", column := 3, gap := Text.ofString " " },
    { kind := .assign, text := Text.ofString "=", column := 17, gap := Text.ofString " \t" },
    { kind := .newline, text := [Text.lineFeed], breaks := 2, gap := Text.ofString " " },
    { kind := .word, text := Text.ofString "c", column := 4, gap := [] },
    { kind := .semicolon, text := Text.ofString ";", column := 9, gap := Text.ofString "  " }]

end TypesetAux

open TypesetAux in
theorem typeset_render_tabbed : 1 ≤ tabbed.tabSize ∧ (∀ x ∈ sheet.lexemes, x.Printable) ∧
    sheet.render tabbed = .ok (Text.ofString "\t ab'\t' \t= \n\n   c    ;") ∧
    Typeset 4 sheet.lexemes (Text.ofString "\t ab'\t' \t= \n\n   c    ;") := by
  have hsize : 1 ≤ tabbed.tabSize := by decide
  have hprintable : ∀ x ∈ sheet.lexemes, x.Printable := by decide
  have hrender : sheet.render tabbed = .ok (Text.ofString "\t ab'\t' \t= \n\n   c    ;") := by decide +kernel
  obtain ⟨t, ht, htypeset, -⟩ := Strand.typeset_render hsize hprintable
  obtain rfl := Except.ok.inj (hrender.symm.trans ht)
  exact ⟨hsize, hprintable, hrender, htypeset⟩

end CodeGroom
