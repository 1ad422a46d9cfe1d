import CodeGroom.Layout.Render
import CodeGroom.Proofs.Annotate.Spelling
import CodeGroom.Proofs.Text.Lines
import CodeGroom.Proofs.Text.Tabs

/-!
# Writing what was spelled

Lexemes that spell a text are written as that text, as long as nothing has moved them: every gap of the source ends at the column
of its lexeme, so the page keeps it. Reader and page must count tabs alike.
-/

namespace CodeGroom

namespace Text

/-- The last line of the beginning of a text begins a line of the text. -/
theorem lastLine_prefix_of_append (u v : Text) : ∃ l ∈ lines (u ++ v), lastLine u <+: l := by
  obtain ⟨p, hu, hp⟩ := exists_append_lastLine u
  obtain ⟨m, ls, -, hlines⟩ := lines_append_of_notMem (lineFeed_notMem_lastLine u) v
  have hmem : lastLine u ++ m ∈ lines (lastLine u ++ v) := hlines ▸ List.mem_cons_self
  have huv : u ++ v = p ++ (lastLine u ++ v) := by rw [← List.append_assoc, ← hu]
  refine ⟨lastLine u ++ m, ?_, List.prefix_append _ _⟩
  rcases hp with rfl | hp
  · rwa [huv, List.nil_append]
  · rw [huv]
    exact List.mem_of_mem_tail ((lines_suffix_of_getLast? hp _).subset hmem)

end Text

namespace Page

variable {r : Ruling} {p : Page}

/-- With tabs of some size there is always a column behind a text. -/
theorem columnAfter_eq (hr : r.tabSize ≠ 0) (p : Page) (t : Text) :
    p.columnAfter r t = .ok (Text.advance r.tabSize p.column t) := by
  simp [columnAfter, hr]

/-- A gap that ends at the column of its text is kept. -/
theorem writeGap_eq (hr : r.tabSize ≠ 0) (ht : r.indentWithTabs = false) {column : Int} {gap : Text}
    (h : Text.advance r.tabSize p.column gap = column) :
    p.writeGap r column gap = .ok { p with current := p.current ++ gap, column } := by
  have hind : p.indentsWithTabs r = false := by simp [indentsWithTabs, ht]
  cases gap with
  | nil =>
    subst h
    simp [writeGap, keepsGap, bind, Except.bind, pure, Except.pure]
  | cons x gap =>
    simp [writeGap, keepsGap, columnAfter_eq hr, hind, h, bind, Except.bind, pure, Except.pure]

/-- Writing a text from a column on fills the line up to that column. -/
theorem write_eq (hr : r.tabSize ≠ 0) (ht : r.indentWithTabs = false) {column : Int} {t gap : Text}
    (h : Text.advance r.tabSize p.column gap = column) :
    p.write r column t gap =
      .ok { p with current := p.current ++ gap ++ t, column := Text.advance r.tabSize column t } := by
  simp [write, writeGap_eq hr ht h, columnAfter_eq hr, bind, Except.bind, pure, Except.pure]

/-- Lexemes are written one behind the other. -/
theorem putAll_append (r : Ruling) (p : Page) (xs ys : List Lexeme) :
    p.putAll r (xs ++ ys) = (p.putAll r xs).bind fun q => q.putAll r ys := by
  induction xs generalizing p with
  | nil => rfl
  | cons x xs ih =>
    simp only [List.cons_append, putAll, bind, Except.bind]
    cases p.put r x with
    | error e => rfl
    | ok q => exact ih q

/-- One more lexeme is written behind the others. -/
theorem putAll_concat {q : Page} {xs : List Lexeme} (h : p.putAll r xs = .ok q) (x : Lexeme) :
    p.putAll r (xs ++ [x]) = q.put r x := by
  rw [putAll_append, h]
  simp only [Except.bind, putAll, bind]
  cases q.put r x <;> rfl

/-- Line feeds end the line and leave empty lines. -/
theorem unlines_newLine (p : Page) (n : Nat) (trailing : Text) :
    Text.unlines (p.newLine ((n + 1 : Nat) : Int) trailing).lines =
      Text.unlines p.lines ++ trailing ++ List.replicate (n + 1) Text.lineFeed := by
  have h : (p.newLine ((n + 1 : Nat) : Int) trailing).lines =
      p.finished ++ (p.current ++ trailing) :: List.replicate n [] ++ [[]] := by
    simp [newLine, lines]
  rw [h, Text.unlines_concat_replicate, Text.unlines_concat_append]
  rfl

theorem column_newLine (p : Page) (n : Nat) (trailing : Text) : (p.newLine ((n + 1 : Nat) : Int) trailing).column = 1 := by
  simp [newLine]

/-- Lexemes that spell a text are written as that text, and the page ends at the column of its end. -/
theorem putAll_of_spells (hpos : 0 < r.tabSize) (ht : r.indentWithTabs = false) {t : Text} {xs : List Lexeme}
    (h : Spells r.tabSize t xs) (htabs : ∀ u, u <+: t → Text.tabsBeforeReturns (Text.lastLine u)) :
    ∃ p, putAll r {} xs.reverse = .ok p ∧ Text.unlines p.lines = t ∧
      p.column = (Text.expandedWidth r.tabSize (Text.lastLine t) : Int) + 1 := by
  have hr : r.tabSize ≠ 0 := Int.ne_of_gt hpos
  -- The column of the page is that of the reader behind any text without a line feed, since tabs are counted alike.
  have hadvance : ∀ {u v : Text}, u ++ v <+: t → Text.lineFeed ∉ v →
      Text.advance r.tabSize ((Text.expandedWidth r.tabSize (Text.lastLine u) : Int) + 1) v =
        (Text.expandedWidth r.tabSize (Text.lastLine (u ++ v)) : Int) + 1 := by
    intro u v huv hv
    have hline := htabs _ huv
    rw [Text.lastLine_append hv] at hline ⊢
    refine Text.advance_expandedWidth hpos (fun hmem => ?_) hline
    rcases List.mem_append.1 hmem with hmem | hmem
    · exact Text.lineFeed_notMem_lastLine u hmem
    · exact hv hmem
  induction h with
  | nil => exact ⟨{}, rfl, rfl, rfl⟩
  | @word t xs x hxs hgap hk hlf hcol ih =>
    have hpre : t <+: t ++ x.gap ++ x.text := by rw [List.append_assoc]; exact List.prefix_append _ _
    obtain ⟨p, hput, hp, hpc⟩ := ih (fun u hu => htabs u (hu.trans hpre)) fun huv => hadvance (huv.trans hpre)
    have hgapcol : Text.advance r.tabSize p.column x.gap = x.column := by
      rw [hpc, hcol]
      exact hadvance (List.prefix_append _ _) hgap.lineFeed_notMem
    have hwrite : p.put r x = .ok
        { p with current := p.current ++ x.gap ++ x.text, column := Text.advance r.tabSize x.column x.text } := by
      rw [put, if_neg (by simpa [Lexeme.isNewline] using hk), write_eq hr ht hgapcol]
    refine ⟨_, by rw [List.reverse_cons, putAll_concat hput, hwrite], ?_, ?_⟩
    · rw [← hp, lines, Text.unlines_concat_append, Text.unlines_concat_append]
      rfl
    · rw [hcol]
      exact hadvance (List.prefix_refl _) hlf
  | @newline t xs x n hxs hgap hk hb ih =>
    have hpre : t <+: t ++ x.gap ++ List.replicate (n + 1) Text.lineFeed := by
      rw [List.append_assoc]
      exact List.prefix_append _ _
    obtain ⟨p, hput, hp, hpc⟩ := ih (fun u hu => htabs u (hu.trans hpre)) fun huv => hadvance (huv.trans hpre)
    have hwrite : p.put r x = .ok (p.newLine ((n + 1 : Nat) : Int) x.gap) := by
      rw [put, if_pos (by simp [Lexeme.isNewline, hk]), hb]
    refine ⟨_, by rw [List.reverse_cons, putAll_concat hput, hwrite], ?_, ?_⟩
    · rw [unlines_newLine, hp]
    · rw [column_newLine, List.replicate_succ', ← List.append_assoc, Text.lastLine_append_lineFeed]
      rfl

end Page

end CodeGroom
