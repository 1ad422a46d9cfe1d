import CodeGroom.Proofs.Alignment.Course
import CodeGroom.Proofs.Annotate.Contents
import CodeGroom.Proofs.Layout.Visible

/-!
# Formatting keeps the code

Whatever passes are run, on balanced code or not, a formatted file is the file it was but for white space and for the parentheses
that were inserted, and its lines end as they did.
-/

namespace CodeGroom

open Text Entry

/-- Inserted parentheses are sound. -/
theorem Lexeme.IsParenthesis.sound {x : Lexeme} (h : x.IsParenthesis) : x.Sound where
  gap := h.gap ▸ .nil
  breaks hk := absurd hk h.kind_ne
  text _ := by rcases h.text with ht | ht <;> rw [ht] <;> decide

theorem Lexeme.Sound.of_bare {x : Lexeme} (h : x.bare.Sound) : x.Sound := ⟨h.gap, h.breaks, h.text⟩

namespace Format

/-- The source that a file is read as. -/
def sourceIn (st : Style) (language : String) (file : List UInt8) : Source :=
  { text := sourceText file, tabSize := st.inputTabSize, language }

/-- The strand that a file is read into. -/
def strandIn (lexer : Lexer) (st : Style) (language : String) (file : List UInt8) : Strand :=
  (sourceIn st language file).read (lexer (sourceText file))

/-- A strand after the passes that insert parentheses, if any are asked for. -/
def grouped (st : Style) (s : Strand) (trace : Trace) : Grouping :=
  if st.groupsAny then ({ strand := s, trace } : Grouping).run st else { strand := s, trace }

/-- A file after the passes that insert parentheses. -/
def groupedIn (lexer : Lexer) (st : Style) (language : String) (file : List UInt8) : Grouping :=
  let src := sourceIn st language file
  let s := strandIn lexer st language file
  grouped st s (.sourceRead s.size language :: (src.annotate (lexer src.text)).trace)

/-- The strand that is written: the grouped one, with its calls aligned if that is asked for. -/
def aligned (st : Style) (s : Strand) : Strand := if st.alignCalls then (CallAligner.align st s).strand else s

end Format

namespace FormatAux

open Format Grouping

variable {st : Style} {s : Strand} {trace : Trace}

/-- The passes group and then align. -/
theorem exists_passes_eq (st : Style) (s : Strand) (trace : Trace) :
    ∃ trace', passes st s trace = (aligned st (grouped st s trace).strand, trace') := by
  unfold passes aligned grouped
  split_ifs <;> exact ⟨_, rfl⟩

/-- What is written is the aligned strand with the ends of the lines put back. -/
theorem bytes_eq (lexer : Lexer) (st : Style) (language : String) (file : List UInt8) :
    ∃ trace, bytes lexer st language file =
      ((aligned st (groupedIn lexer st language file).strand).render st.ruling).map fun formatted =>
        (Text.encode (restoreEnds formatted.lines (Text.decode file).lines), trace) := by
  obtain ⟨trace', hpasses⟩ := exists_passes_eq st (strandIn lexer st language file)
    (.sourceRead (strandIn lexer st language file).size language ::
      ((sourceIn st language file).annotate (lexer (sourceText file))).trace)
  have hbytes : bytes lexer st language file =
      (fun p : Strand × Trace => (p.1.render st.ruling).map fun formatted =>
        (Text.encode (restoreEnds formatted.lines (Text.decode file).lines), p.2))
      (passes st (strandIn lexer st language file) (.sourceRead (strandIn lexer st language file).size language ::
        ((sourceIn st language file).annotate (lexer (sourceText file))).trace)) := by
    unfold bytes strandIn
    rfl
  rw [hpasses] at hbytes
  exact ⟨trace', hbytes⟩

/-- What the grouping leaves shows what there was, grown by its pairs. -/
theorem exists_grown_grouped (st : Style) (trace : Trace) (hs : s.WellLinked) (hread : ∀ x ∈ s.lexemes, x.WellRead) :
    ∃ es, (grouped st s trace).strand.Shows es ∧ Grown s.rows es (grouped st s trace).pairs := by
  unfold grouped
  split_ifs
  · exact exists_grown_run st { strand := s, trace } hs (orderly_rows hread) rfl
  · exact ⟨s.rows, hs.shows, .start⟩

/-- Whether calls are aligned or not, lexemes are at other columns at most. -/
theorem recolumned_aligned (st : Style) (hs : s.WellLinked) : s.Recolumned (aligned st s) := by
  unfold aligned
  split_ifs
  · exact CallAligner.recolumned_align st hs
  · exact .refl s

/-- A listing without columns is that of any strand with the same lexemes at other columns. -/
theorem bares_rows_of_recolumned {t : Strand} (h : s.Recolumned t) : bares t.rows = bares s.rows := by
  rw [bares, bares, Strand.rows, Strand.rows, List.map_map, List.map_map, h.order_eq]
  refine List.map_congr_left ?_
  intro i _
  have hbare := congrArg Lexeme.flat (h.bare_eq i)
  exact congrArg (Entry.mk i) hbare

theorem name_lt_of_mem_rows (hs : s.WellLinked) : ∀ e ∈ s.rows, e.name < s.rows.length := by
  intro e he
  rw [hs.shows.length_eq]
  exact hs.shows.name_lt he

/-- A file that is about to be written: the lexemes that were read, in their order, and two parentheses for each pair. -/
structure Ready (s t : Strand) (pairs : Nat) : Prop where
  mixed : Mixed s.size t.rows
  spelled : spelling (readBelow s.size t.rows) = spelling s.lexemes
  added : ((bares t.rows).filter (s.size ≤ ·.name)).map (·.lexeme.text) |>.Perm
    (List.replicate pairs [.char '('] ++ List.replicate pairs [.char ')'])

/-- A spelling does not depend on columns. -/
theorem spelling_map_bare (xs : List Lexeme) : spelling (xs.map Lexeme.bare) = spelling xs := by
  rw [spelling, spelling, List.flatMap_map]
  rfl

/-- A spelling does not depend on depths. -/
theorem spelling_map_flat (xs : List Lexeme) : spelling (xs.map Lexeme.flat) = spelling xs := by
  rw [spelling, spelling, List.flatMap_map]
  rfl

theorem lexemes_bares (es : List Entry) : lexemes (bares es) = (lexemes es).map Lexeme.bare := by
  simp [lexemes, bares, change]

/-- A lexeme that was read is one of those that were read, apart from its column and depth. -/
theorem exists_read_of_mem {t : Strand} (hold : (bares t.rows).filter (·.name < s.size) = bares s.rows) {e : Entry}
    (he : e ∈ t.rows) (hlt : e.name < s.size) : ∃ x ∈ s.lexemes, x.flat.bare = e.lexeme.bare := by
  have hmem : e.change Lexeme.bare ∈ bares t.rows := List.mem_map_of_mem he
  have hread : e.change Lexeme.bare ∈ bares s.rows := by
    rw [← hold]
    exact List.mem_filter.2 ⟨hmem, decide_eq_true hlt⟩
  obtain ⟨u, hu, heq⟩ := List.mem_map.1 hread
  obtain ⟨i, hi, rfl⟩ := List.mem_map.1 hu
  exact ⟨_, List.mem_map_of_mem hi, congrArg Entry.lexeme heq⟩

/-- Grouping and aligning a strand that was read leaves it ready to be written. -/
theorem ready (st : Style) (trace : Trace) (hs : s.WellLinked) (hsound : ∀ x ∈ s.lexemes, x.Sound)
    (hread : ∀ x ∈ s.lexemes, x.WellRead) :
    Ready s (aligned st (grouped st s trace).strand) (grouped st s trace).inserted := by
  obtain ⟨es, hshows, hgrown⟩ := exists_grown_grouped st trace hs hread
  have hnames := name_lt_of_mem_rows hs
  have hbares := bares_rows_of_recolumned (recolumned_aligned st hshows.linked.wellLinked)
  rw [hshows.rows_eq] at hbares
  have hold := hgrown.old_eq hnames
  have hnew := hgrown.isParenthesis hnames
  have hperm := hgrown.new_perm hnames
  rw [hs.shows.length_eq, ← hbares] at hold hnew hperm
  generalize aligned st (grouped st s trace).strand = t at hold hnew hperm ⊢
  have hparen : ∀ e ∈ t.rows, s.size ≤ e.name → e.lexeme.bare.IsParenthesis := fun e he hle =>
    hnew (e.change Lexeme.bare) (List.mem_map_of_mem he) hle
  refine ⟨⟨?_, ?_, ?_⟩, ?_, hperm⟩
  · intro e he
    rcases Nat.lt_or_ge e.name s.size with hlt | hle
    · obtain ⟨x, hx, heq⟩ := exists_read_of_mem hold he hlt
      have hflat : x.flat.bare.Sound := ⟨(hsound x hx).gap, (hsound x hx).breaks, (hsound x hx).text⟩
      exact .of_bare (heq ▸ hflat)
    · exact .of_bare (hparen e he hle).sound
  · intro e he hlt
    obtain ⟨x, hx, heq⟩ := exists_read_of_mem hold he hlt
    have hgap : x.flat.bare.text = [] → x.flat.bare.gap = [] := (hread x hx).gap
    rw [heq] at hgap
    exact hgap
  · intro e he hle
    exact ⟨(hparen e he hle).kind, (hparen e he hle).text, (hparen e he hle).gap⟩
  · have hlexemes := congrArg Entry.lexemes hold
    rw [bares, List.filter_map, ← bares, lexemes_bares, lexemes_bares, Strand.lexemes_rows] at hlexemes
    have hspelled := congrArg spelling hlexemes
    rwa [spelling_map_bare, spelling_map_bare, spelling_map_flat] at hspelled

/-- The source of a file is what the lexemes of its strand spell, and white space behind the last one. -/
theorem exists_sourceText_eq {lexer : Lexer} (st : Style) (language : String) {file : List UInt8}
    (htiles : Token.Tiles 0 (sourceText file) (lexer (sourceText file))) :
    ∃ rest, sourceText file = spelling (strandIn lexer st language file).lexemes ++ rest ∧ rest.IsGap ∧
      ∀ x ∈ (strandIn lexer st language file).lexemes, x.Sound := by
  obtain ⟨t, rest, htext, hrest, hspells⟩ := (sourceIn st language file).spells_annotate htiles
  obtain ⟨ht, hsound⟩ := hspells.eq_spelling
  refine ⟨rest, ?_, hrest, ?_⟩
  · rw [strandIn, Source.lexemes_read, ← ht]
    exact htext
  · intro x hx
    rw [strandIn, Source.lexemes_read] at hx
    exact hsound x (List.mem_reverse.1 hx)

/-- So it is for the strand of a file. -/
theorem ready_strandIn {lexer : Lexer} (st : Style) (language : String) {file : List UInt8}
    (htiles : Token.Tiles 0 (sourceText file) (lexer (sourceText file))) :
    Ready (strandIn lexer st language file) (aligned st (groupedIn lexer st language file).strand)
      (groupedIn lexer st language file).inserted := by
  obtain ⟨-, -, -, hsound⟩ := exists_sourceText_eq st language htiles
  exact ready st _ (Strand.wellLinked_ofLexemes _ _) hsound ((sourceIn st language file).wellRead _)

/-- What is ready to be written is sound. -/
theorem Ready.sound {t : Strand} {pairs : Nat} (h : Ready s t pairs) : ∀ x ∈ lexemes t.rows, x.Sound := by
  intro x hx
  obtain ⟨e, he, rfl⟩ := List.mem_map.1 hx
  exact h.mixed.sound e he

theorem Ready.sound_lexemes {t : Strand} {pairs : Nat} (h : Ready s t pairs) : ∀ x ∈ t.lexemes, x.Sound := by
  intro x hx
  have hflat : x.flat ∈ lexemes t.rows := by
    rw [Strand.lexemes_rows]
    exact List.mem_map_of_mem hx
  have hx' := h.sound _ hflat
  exact ⟨hx'.gap, hx'.breaks, hx'.text⟩

theorem Ready.sound_readBelow {t : Strand} {pairs : Nat} (h : Ready s t pairs) : ∀ x ∈ readBelow s.size t.rows, x.Sound :=
  fun x hx => h.sound x ((List.filter_sublist.map _).subset hx)

/-- The symbols that are written are those that were read and two parentheses for each pair. -/
theorem Ready.symbols_perm {t : Strand} {pairs : Nat} (h : Ready s t pairs) :
    ((lexemes t.rows).flatMap (·.symbols)).Perm ((readBelow s.size t.rows).flatMap (·.symbols) ++
      (List.replicate pairs (.char '(') ++ List.replicate pairs (.char ')'))) := by
  have hadded : (lexemes (t.rows.filter (s.size ≤ ·.name))).flatMap (·.symbols) =
      (((bares t.rows).filter (s.size ≤ ·.name)).map (·.lexeme.text)).flatten := by
    rw [bares, List.filter_map, List.map_map, lexemes, List.flatMap_map, ← List.flatMap_def]
    refine List.flatMap_congr ?_
    intro e he
    obtain ⟨hmem, hle⟩ := List.mem_filter.1 he
    exact Lexeme.symbols_of_ne_newline (h.mixed.inserted e hmem (by simpa using hle)).kind_ne
  have hparts := List.filter_append_perm (fun e : Entry => decide (e.name < s.size)) t.rows
  have hrest : t.rows.filter (fun e => !decide (e.name < s.size)) = t.rows.filter (s.size ≤ ·.name) := by
    refine List.filter_congr ?_
    intro e _
    rw [← decide_not, decide_eq_decide, Nat.not_lt]
  rw [hrest] at hparts
  have hsymbols := (hparts.map (·.lexeme)).flatMap_right (·.symbols)
  rw [List.map_append, List.flatMap_append] at hsymbols
  refine hsymbols.symm.trans (.append_left _ ?_)
  have hflat := h.added.flatten
  rw [List.flatten_append, List.flatten_replicate_singleton, List.flatten_replicate_singleton, ← hadded] at hflat
  exact hflat

/-- What is written has as many line feeds as the source. -/
theorem Ready.count_written {t : Strand} {pairs : Nat} (h : Ready s t pairs) (r : Ruling) :
    (r.written 1 (lexemes t.rows)).count Text.lineFeed = (spelling s.lexemes).count Text.lineFeed := by
  have hnone : (List.replicate pairs (Symbol.char '(') ++ List.replicate pairs (Symbol.char ')')).count Text.lineFeed = 0 := by
    simp [List.count_replicate, Text.lineFeed]
  rw [r.count_written h.sound, ← h.spelled, count_spelling h.sound_readBelow, h.symbols_perm.count_eq, List.count_append, hnone,
    Nat.add_zero]

/-- A formatted file is what its lexemes are written as, with the ends of its lines put back. -/
theorem exists_bytes_eq {lexer : Lexer} {st : Style} (hst : st.outputTabSize ≠ 0) (language : String) {file : List UInt8}
    (htiles : Token.Tiles 0 (sourceText file) (lexer (sourceText file))) :
    ∃ text trace, bytes lexer st language file = .ok (Text.encode text, trace) ∧
      text = Text.putBack id Text.carriageReturn (carriageReturns (Text.decode file).lines)
        (st.ruling.written 1 (lexemes (aligned st (groupedIn lexer st language file).strand).rows)) := by
  have hready := ready_strandIn st language htiles
  obtain ⟨rest, hsource, hrest, -⟩ := exists_sourceText_eq st language htiles
  obtain ⟨trace, hbytes⟩ := bytes_eq lexer st language file
  generalize aligned st (groupedIn lexer st language file).strand = t at hready hbytes ⊢
  have hcount : (st.ruling.written 1 (lexemes t.rows)).count Text.lineFeed = (carriageReturns (Text.decode file).lines).length := by
    rw [hready.count_written, ← (decode_eq_putBack file).2, hsource, List.count_append, hrest.count, Nat.add_zero]
  refine ⟨_, trace, ?_, rfl⟩
  rw [← restoreEnds_eq_putBack hcount, Strand.lexemes_rows, Ruling.written_map_flat, hbytes, Strand.render_eq hst hready.sound_lexemes]
  rfl

end FormatAux

open FormatAux

/-- Formatting never loses, alters or reorders code: white space aside, a formatted file is the file with one opening and one
closing parenthesis more for each pair inserted. It has as many line feeds, and the same lines end with a carriage return. -/
theorem Format.bytes_keepsCode (lexer : Lexer) (st : Style) (language : String) (file : List UInt8) (hst : st.outputTabSize ≠ 0)
    (htiles : Token.Tiles 0 (sourceText file) (lexer (sourceText file))) :
    ∃ text trace, bytes lexer st language file = .ok (Text.encode text, trace) ∧
      (Text.visible (Text.decode file)).Sublist (Text.visible text) ∧
      (Text.visible text).Perm (Text.visible (Text.decode file) ++
        (List.replicate (groupedIn lexer st language file).inserted (.char '(') ++
          List.replicate (groupedIn lexer st language file).inserted (.char ')'))) ∧
      text.count Text.lineFeed = (Text.decode file).count Text.lineFeed ∧
      carriageReturns text.lines = carriageReturns (Text.decode file).lines := by
  have hready := ready_strandIn st language htiles
  obtain ⟨rest, hsource, hrest, -⟩ := exists_sourceText_eq st language htiles
  obtain ⟨hdecode, hlength⟩ := decode_eq_putBack file
  obtain ⟨text, trace, hbytes, htext⟩ := exists_bytes_eq hst language htiles
  refine ⟨text, trace, hbytes, ?_⟩
  clear hbytes
  generalize aligned st (groupedIn lexer st language file).strand = t at hready htext
  obtain ⟨returns, hreturns⟩ : ∃ returns, returns = carriageReturns (Text.decode file).lines := ⟨_, rfl⟩
  rw [← hreturns] at htext hdecode hlength ⊢
  have hvisible : Text.visible text = Text.visible ((lexemes t.rows).flatMap (·.symbols)) := by
    rw [htext, Text.visible, Text.filter_blank_putBack]
    exact st.ruling.visible_written hready.sound 1
  have hvisible' : Text.visible (Text.decode file) =
      Text.visible ((readBelow (strandIn lexer st language file).size t.rows).flatMap (·.symbols)) := by
    rw [hdecode, Text.visible, Text.filter_blank_putBack, ← Text.visible, hsource, Text.visible_append, hrest.visible,
      List.append_nil, ← hready.spelled, visible_spelling hready.sound_readBelow]
  have hfeeds : (st.ruling.written 1 (lexemes t.rows)).count Text.lineFeed = (sourceText file).count Text.lineFeed := by
    rw [hready.count_written, hsource, List.count_append, hrest.count, Nat.add_zero]
  refine ⟨?_, ?_, ?_, ?_⟩
  · rw [hvisible, hvisible']
    exact (sublist_flatMap_readBelow _ _).filter _
  · rw [hvisible, hvisible']
    have hperm := hready.symbols_perm.filter (!·.isBlank)
    rw [List.filter_append, List.filter_append, List.filter_replicate_of_pos (by decide),
      List.filter_replicate_of_pos (by decide)] at hperm
    exact hperm
  · rw [htext, hdecode, Text.count_putBack, Text.count_putBack, hfeeds]
  · -- The file has its carriage returns where they are put back, and no others stand in front of a line feed of the source.
    have hfile : returns = List.zipWith (· || ·) returns (Text.returnsFrom false (sourceText file)) := by
      rw [← Text.returnsFrom_putBack hlength.symm, ← hdecode, ← Text.carriageReturns_lines, hreturns]
    have hfewer := hready.mixed.returnsFrom_written st.ruling 1 (id : false = true → false = true)
    rw [hready.spelled, ← Text.returnsFrom_append_of_notMem hrest.lineFeed_notMem _ (spelling _), ← hsource] at hfewer
    rw [htext, Text.carriageReturns_lines, Text.returnsFrom_putBack (hlength.symm.trans hfeeds.symm), hfewer.zipWith_or_eq hfile]

namespace FormatAux

/-- A condition over two lines with both line ends, a tab, and a blank in front of the closing parenthesis. -/
def groupedFile : List UInt8 :=
  [105, 102, 32, 40, 97, 32, 61, 61, 32, 49, 13, 10, 9, 124, 124, 32, 98, 32, 41, 32, 99, 59, 10]

/-- The tokens of that file. -/
def groupedTokens : List Token :=
  [⟨0, .keyword, Text.ofString "if"⟩, ⟨2, .text, Text.ofString " "⟩, ⟨3, .punctuation, Text.ofString "("⟩,
    ⟨4, .name, Text.ofString "a"⟩, ⟨5, .text, Text.ofString " "⟩, ⟨6, .operator, Text.ofString "=="⟩,
    ⟨8, .text, Text.ofString " "⟩, ⟨9, .numberInteger, Text.ofString "1"⟩, ⟨10, .text, Text.ofString "\n\t"⟩,
    ⟨12, .operator, Text.ofString "||"⟩, ⟨14, .text, Text.ofString " "⟩, ⟨15, .name, Text.ofString "b"⟩,
    ⟨16, .text, Text.ofString " "⟩, ⟨17, .punctuation, Text.ofString ")"⟩, ⟨18, .text, Text.ofString " "⟩,
    ⟨19, .name, Text.ofString "c"⟩, ⟨20, .punctuation, Text.ofString ";"⟩, ⟨21, .text, Text.ofString "\n"⟩]

/-- A style that groups conditions. -/
def groupingStyle : Style := { groupConditions := true }

end FormatAux

theorem Format.bytes_groupedFile :
    groupingStyle.outputTabSize ≠ 0 ∧ Token.Tiles 0 (sourceText groupedFile) groupedTokens ∧
    ∃ text trace, bytes (fun _ => groupedTokens) groupingStyle "c" groupedFile = .ok (Text.encode text, trace) ∧
      (Text.visible (Text.decode groupedFile)).Sublist (Text.visible text) ∧
      (Text.visible text).Perm (Text.visible (Text.decode groupedFile) ++
        (List.replicate (groupedIn (fun _ => groupedTokens) groupingStyle "c" groupedFile).inserted (.char '(') ++
          List.replicate (groupedIn (fun _ => groupedTokens) groupingStyle "c" groupedFile).inserted (.char ')'))) ∧
      text.count Text.lineFeed = (Text.decode groupedFile).count Text.lineFeed ∧
      carriageReturns text.lines = carriageReturns (Text.decode groupedFile).lines :=
  ⟨by decide, by decide, bytes_keepsCode (fun _ => groupedTokens) groupingStyle "c" groupedFile (by decide) (by decide)⟩

example : (Format.groupedIn (fun _ => groupedTokens) groupingStyle "c" groupedFile).inserted = 1 := by decide +kernel

end CodeGroom
