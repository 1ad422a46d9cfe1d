import CodeGroom.Format
import CodeGroom.Proofs.Annotate.Lossless
import CodeGroom.Proofs.Layout.Spelled
import CodeGroom.Proofs.Strand.Order
import CodeGroom.Proofs.Text.Encoding

/-!
# Formatting without passes

With every pass off, spaces for indentation and the same tab size on both sides, a file is written back byte for byte, but for
white space behind its last line break.
-/

namespace CodeGroom

/-- A style that runs no pass, indents with spaces, and counts tabs alike when reading and writing. -/
structure Style.ChangesNothing (st : Style) : Prop where
  groups : st.groupsAny = false
  align : st.alignCalls = false
  indent : st.indentWithTabs = false
  tabs : st.inputTabSize = st.outputTabSize
  tabs_pos : 1 ≤ st.inputTabSize

/-- The source that a file is read as. -/
def Format.sourceText (file : List UInt8) : Text := Format.sourceOf (Text.decode file).lines

namespace FormatAux

open Format

/-- A line without the carriage return that ends it. -/
def stripReturn (l : Text) : Text := dropReturn l (l.getLast? = some (.char '\r'))

theorem sourceOf_concat (ls : List Text) (last : Text) :
    sourceOf (ls ++ [last]) = Text.unlines (ls.map stripReturn ++ [last]) := by
  have hzip : ∀ l : List Text, List.zipWith dropReturn (l ++ [last]) (carriageReturns (l ++ [last]) ++ [false]) =
      l.map stripReturn ++ [last] := by
    intro l
    simp only [carriageReturns, List.dropLast_concat]
    induction l with
    | nil => simp [dropReturn]
    | cons x l ih =>
      simp only [List.cons_append, List.map_cons, List.zipWith_cons_cons, ih]
      rfl
  rw [sourceOf, hzip]

/-- A line gets back the end that was taken off. -/
theorem stripReturn_append_lineEnd (l : Text) :
    stripReturn l ++ lineEnd (l.getLast? = some (.char '\r')) = l ++ [Text.lineFeed] := by
  by_cases h : l.getLast? = some (.char '\r')
  · have hl := List.dropLast_append_getLast? (Symbol.char '\r') h
    simp only [stripReturn, dropReturn, lineEnd, h, decide_true, if_true]
    conv_rhs => rw [← hl]
    simp
  · simp [stripReturn, dropReturn, lineEnd, h]

theorem restoreEnds_concat (ls : List Text) (x last : Text) :
    restoreEnds (ls.map stripReturn ++ [x]) (ls ++ [last]) = Text.unlines (ls ++ [x]) := by
  rw [Text.unlines_concat, restoreEnds, carriageReturns, List.dropLast_concat]
  induction ls with
  | nil => simp
  | cons l ls ih =>
    simp only [List.map_cons, List.cons_append, List.zipWith_cons_cons, List.flatten_cons, List.append_assoc] at ih ⊢
    rw [ih, ← List.append_assoc, stripReturn_append_lineEnd, List.append_assoc]
    rfl

theorem lineFeed_notMem_stripReturn {l : Text} (h : Text.lineFeed ∉ l) : Text.lineFeed ∉ stripReturn l := by
  unfold stripReturn dropReturn
  split_ifs
  · exact fun hmem => h (List.dropLast_subset l hmem)
  · exact h

/-- A beginning of the source, cut into lines and given back the ends of the lines that were read, is a beginning of what was
read. -/
theorem restoreEnds_lines {file : List UInt8} {t rest : Text} (h : sourceText file = t ++ rest)
    (hrest : Text.lineFeed ∉ rest) :
    Text.decode file = restoreEnds t.lines (Text.decode file).lines ++ rest := by
  obtain ⟨ls, last, hgiven⟩ : ∃ ls last, (Text.decode file).lines = ls ++ [last] := by
    rcases List.eq_nil_or_concat (Text.decode file).lines with hnil | ⟨ls, last, hgiven⟩
    · exact absurd hnil (Text.lines_ne_nil _)
    · exact ⟨ls, last, by rw [hgiven, List.concat_eq_append]⟩
  have hfeed : ∀ l ∈ ls ++ [last], Text.lineFeed ∉ l := fun l hl => Text.lineFeed_notMem_lines (hgiven ▸ hl)
  rw [sourceText, hgiven, sourceOf_concat] at h
  obtain ⟨x, rfl, rfl⟩ := Text.exists_last_of_append h hrest
  have hlines : (Text.unlines (ls.map stripReturn ++ [x])).lines = ls.map stripReturn ++ [x] := by
    refine Text.lines_unlines (by simp) ?_
    intro l hl
    rcases List.mem_append.1 hl with hl | hl
    · obtain ⟨m, hm, rfl⟩ := List.mem_map.1 hl
      exact lineFeed_notMem_stripReturn (hfeed m (List.mem_append_left _ hm))
    · obtain rfl := List.mem_singleton.1 hl
      exact fun hmem => hfeed (l ++ rest) (by simp) (List.mem_append_left _ hmem)
  rw [hlines, hgiven, restoreEnds_concat, ← Text.unlines_concat_append, ← hgiven, Text.unlines_lines]

theorem passes_eq {st : Style} (h : st.ChangesNothing) (s : Strand) (trace : Trace) : passes st s trace = (s, trace) := by
  simp [passes, h.groups, h.align]

/-- Lexemes that spell a text are rendered as that text. -/
theorem render_ofLexemes {st : Style} (h : st.ChangesNothing) (language : String) {t : Text} {xs : List Lexeme}
    (hxs : Spells st.inputTabSize t xs) (htabs : ∀ u, u <+: t → Text.tabsBeforeReturns (Text.lastLine u)) :
    (Strand.ofLexemes language xs.reverse).render st.ruling = .ok t := by
  have hpos : 0 < st.ruling.tabSize := by
    have h1 := h.tabs_pos
    have h2 := h.tabs
    show 0 < st.outputTabSize
    omega
  have hspells : Spells st.ruling.tabSize t xs := by
    show Spells st.outputTabSize t xs
    rwa [← h.tabs]
  obtain ⟨p, hput, hp, -⟩ := Page.putAll_of_spells hpos h.indent hspells htabs
  rw [Strand.render, Strand.lexemes, Strand.map_lexeme_order_ofLexemes, hput, ← hp]
  rfl

end FormatAux

open FormatAux

/-- With every pass off a file comes back as it was, except that white space behind its last lexeme is left out when no line feed
follows it; so nothing at all is left out of a file that ends with a line feed or with anything but white space. -/
theorem Format.bytes_of_changesNothing (lexer : Lexer) (st : Style) (language : String) (file : List UInt8)
    (hst : st.ChangesNothing) (htiles : Token.Tiles 0 (sourceText file) (lexer (sourceText file)))
    (hreturns : ∀ l ∈ (sourceText file).lines, Text.tabsBeforeReturns l) :
    ∃ out trace rest, bytes lexer st language file = .ok (out, trace) ∧ file = out ++ Text.encode rest ∧ rest.IsGap ∧
      ((∀ x, (Text.decode file).getLast? = some x → x = Text.lineFeed ∨ x.isBlank = false) → out = file) := by
  let src : Source := { text := sourceText file, tabSize := st.inputTabSize, language }
  obtain ⟨t, rest, ht, hrest, hspells⟩ := src.spells_annotate htiles
  have htabs : ∀ u, u <+: t → Text.tabsBeforeReturns (Text.lastLine u) := by
    rintro u ⟨v, rfl⟩
    have hsrc : sourceText file = u ++ (v ++ rest) := by rw [← List.append_assoc]; exact ht
    obtain ⟨l, hl, m, rfl⟩ := Text.lastLine_prefix_of_append u (v ++ rest)
    exact Text.TabsAux.tabsBeforeReturns_of_append (hreturns _ (hsrc ▸ hl))
  have hrender := render_ofLexemes hst language hspells htabs
  have hdecode := restoreEnds_lines ht hrest.lineFeed_notMem
  obtain ⟨trace, hbytes⟩ : ∃ trace, bytes lexer st language file =
      .ok (Text.encode (restoreEnds t.lines (Text.decode file).lines), trace) := by
    refine ⟨.sourceRead (Strand.ofLexemes language (src.annotate (lexer src.text)).lexemes.reverse).size language ::
      (src.annotate (lexer src.text)).trace, ?_⟩
    simp only [bytes, passes_eq hst]
    exact congrArg (Except.bind · _) hrender
  refine ⟨_, trace, rest, hbytes, ?_, hrest, ?_⟩
  · rw [← Text.encode_append, ← hdecode, Text.encode_decode]
  · intro hlast
    -- A blank that is left out would be the last symbol of the file.
    have hnil : rest = [] := by
      rcases List.eq_nil_or_concat rest with rfl | ⟨init, x, rfl⟩
      · rfl
      · rw [List.concat_eq_append] at hdecode hrest
        have hx := hrest x (by simp)
        rcases hlast x (by rw [hdecode, ← List.append_assoc, List.getLast?_concat]) with h | h
        · exact absurd h hx.2
        · rw [hx.1] at h
          cases h
    rw [hnil, List.append_nil] at hdecode
    rw [← hdecode, Text.encode_decode]

namespace FormatAux

/-- A file with tabs, both line ends, an empty line and a byte that belongs to no character. -/
def mixedFile : List UInt8 := [9, 120, 9, 61, 32, 49, 59, 13, 10, 10, 32, 255, 121, 32, 9]

/-- The tokens of that file. -/
def mixedTokens : List Token :=
  [⟨0, .whitespace, [.char '\t']⟩, ⟨1, .name, [.char 'x']⟩, ⟨2, .whitespace, [.char '\t']⟩, ⟨3, .operator, [.char '=']⟩,
    ⟨4, .whitespace, [.char ' ']⟩, ⟨5, .numberInteger, [.char '1']⟩, ⟨6, .punctuation, [.char ';']⟩,
    ⟨7, .whitespace, [.char '\n']⟩, ⟨8, .whitespace, [.char '\n']⟩, ⟨9, .whitespace, [.char ' ']⟩, ⟨10, .error, [.byte 255]⟩,
    ⟨11, .name, [.char 'y']⟩, ⟨12, .whitespace, [.char ' ', .char '\t']⟩]

end FormatAux

theorem Format.bytes_mixedFile :
    ∃ out trace rest, bytes (fun _ => mixedTokens) {} "c" mixedFile = .ok (out, trace) ∧
      mixedFile = out ++ Text.encode rest ∧ rest.IsGap ∧
      ((∀ x, (Text.decode mixedFile).getLast? = some x → x = Text.lineFeed ∨ x.isBlank = false) → out = mixedFile) :=
  bytes_of_changesNothing (fun _ => mixedTokens) {} "c" mixedFile ⟨rfl, rfl, rfl, rfl, by decide⟩ (by decide) (by decide)

end CodeGroom
