import CodeGroom.Proofs.Format.Code
import CodeGroom.Proofs.Layout.Laid

/-!
# Taking inserted parentheses away

The symbols of a formatted file can be told apart: some belong to parentheses that were inserted, and without these the file is the
one that was read. That is so for files whose white space is blanks and line ends; a tab takes another width once the rest of its
line has moved.
-/

namespace CodeGroom

namespace Text

/-- A text whose symbols carry a mark. -/
def withMark (mark : Bool) (t : Text) : List (Symbol × Bool) := t.map (·, mark)

@[simp] theorem map_fst_withMark (mark : Bool) (t : Text) : (t.withMark mark).map Prod.fst = t := by
  simp [withMark, Function.comp_def]

@[simp] theorem filter_withMark_false (t : Text) : (t.withMark false).filter (!·.2) = t.withMark false :=
  List.filter_eq_self.2 (by simp [withMark])

@[simp] theorem filter_withMark_true (t : Text) : (t.withMark true).filter (!·.2) = [] :=
  List.filter_eq_nil_iff.2 (by simp [withMark])

/-- Whether the white space of a text is blanks, line feeds, and carriage returns directly in front of a line feed. -/
def spacedPlainly : Text → Bool
  | [] => true
  | x :: t =>
    (!x.isBlank || x = .char ' ' || x = lineFeed || (x = carriageReturn && t.head? = some lineFeed)) && spacedPlainly t

/-- In front of a line feed that gets a carriage return back there is that carriage return. -/
theorem head?_putBack_true (returns : List Bool) (t : Text) :
    (putBack id carriageReturn (true :: returns) t).head? ≠ some lineFeed := by
  cases t with
  | nil => simp [putBack]
  | cons x t =>
    by_cases hx : id x = lineFeed
    · have hreturn : carriageReturn ≠ lineFeed := by decide
      rw [putBack_true hx]
      exact fun hhead => hreturn (Option.some.inj hhead)
    · rw [putBack_cons_of_ne hx]
      exact fun hhead => hx (Option.some.inj hhead)

theorem Plain.cons {x : Symbol} {t : Text} (hx : x.isBlank = true → x = .char ' ' ∨ x = lineFeed) (ht : Plain t) :
    Plain (x :: t) := by
  intro y hy
  rcases List.mem_cons.1 hy with rfl | hy
  · exact hx
  · exact ht y hy

/-- A text that is spaced plainly with all its carriage returns put back is plain without them. -/
theorem plain_of_putBack {behind : Bool} {returns : List Bool} {t : Text}
    (h : spacedPlainly (putBack id carriageReturn returns t) = true)
    (hreturns : returnsFrom behind (putBack id carriageReturn returns t) = returns) : t.Plain := by
  have hfeed : id lineFeed = lineFeed := rfl
  induction t generalizing behind returns with
  | nil => exact fun x hx => by cases hx
  | cons x t ih =>
    by_cases hx : x = lineFeed
    · subst hx
      refine .cons (fun _ => .inr rfl) ?_
      match returns with
      | [] => simp [putBack] at hreturns
      | true :: returns =>
        rw [putBack_true hfeed, spacedPlainly, spacedPlainly, Bool.and_eq_true, Bool.and_eq_true] at h
        rw [putBack_true hfeed, returnsFrom_cons_of_ne (by decide), returnsFrom_cons_lineFeed] at hreturns
        exact ih h.2.2 (List.cons.inj hreturns).2
      | false :: returns =>
        rw [putBack_false hfeed, spacedPlainly, Bool.and_eq_true] at h
        rw [putBack_false hfeed, returnsFrom_cons_lineFeed] at hreturns
        exact ih h.2 (List.cons.inj hreturns).2
    · rw [putBack_cons_of_ne hx, spacedPlainly, Bool.and_eq_true] at h
      rw [putBack_cons_of_ne hx, returnsFrom_cons_of_ne hx] at hreturns
      refine .cons (fun hblank => ?_) (ih h.2 hreturns)
      have hsymbol := h.1
      simp only [hblank, Bool.not_true, Bool.false_or, Bool.or_eq_true, Bool.and_eq_true, decide_eq_true_eq] at hsymbol
      refine hsymbol.resolve_right ?_
      rintro ⟨rfl, hhead⟩
      -- A carriage return that is left over would stand where one is put back.
      obtain ⟨u, hu⟩ := List.head?_eq_some_iff.1 hhead
      rw [hu, decide_eq_true rfl, returnsFrom_cons_lineFeed] at hreturns
      rw [← hreturns] at hhead
      exact head?_putBack_true _ _ hhead

end Text

open Text Entry

namespace Ruling

variable {r : Ruling} {isMarked : Nat → Bool} {start : Int} {es : List Entry} {t : Text} {x : Lexeme}

/-- What is written of entries from a column on, the symbols of some of them marked. White space in front of an entry is not. -/
def marked (r : Ruling) (isMarked : Nat → Bool) : Int → List Entry → List (Symbol × Bool)
  | _, [] => []
  | start, e :: es =>
    (r.gapBefore start e.lexeme).withMark false ++ e.lexeme.symbols.withMark (isMarked e.name) ++
      marked r isMarked (r.columnBehind start e.lexeme) es

theorem map_fst_marked (start : Int) (es : List Entry) :
    (r.marked isMarked start es).map Prod.fst = r.written start (lexemes es) := by
  induction es generalizing start with
  | nil => rfl
  | cons e es ih =>
    rw [marked, List.map_append, List.map_append, map_fst_withMark, map_fst_withMark, ih, lexemes_cons, written]

/-- A lexeme is written at its column, with blanks in front of it, if there are no tabs and it does not come too late. -/
theorem gapBefore_eq (hindent : r.indentWithTabs = false) (hkind : x.kind ≠ .newline) (hgap : ∀ b ∈ x.gap, b = .char ' ')
    (htab : Text.tab ∉ x.text) (hle : start ≤ x.column) :
    r.gapBefore start x = copies (x.column - start) (.char ' ') ∧ r.columnBehind start x = x.column + x.width := by
  have hnl : x.isNewline = false := by
    rw [← Bool.not_eq_true, Lexeme.isNewline_iff]
    exact hkind
  refine ⟨?_, ?_⟩
  · unfold gapBefore
    rw [hnl, Bool.false_or]
    split_ifs with hkeeps hlt
    · have htabs : Text.tab ∉ x.gap := fun hmem => absurd (hgap _ hmem) (by decide)
      simp only [keeps, Bool.and_eq_true, decide_eq_true_eq, advance_of_tab_notMem htabs] at hkeeps
      rw [show x.column - start = x.gap.length by omega]
      exact eq_copies hgap
    · rw [filling, hindent, Bool.and_false, if_neg Bool.false_ne_true]
    · rw [show x.column - start = 0 by omega, copies_zero]
  · unfold columnBehind
    rw [hnl, if_neg Bool.false_ne_true, advance_of_tab_notMem htab, Int.max_eq_right hle, ite_self]
    rfl

end Ruling

/-- Without the parentheses that were inserted, what is written is what was read. -/
theorem Entry.Laid.erase_marked {r : Ruling} {isMarked : Nat → Bool} {n : Nat} {start : Int} {es : List Entry} {t : Text}
    (h : Laid n start es t) (hindent : r.indentWithTabs = false) (hmarks : ∀ e ∈ es, isMarked e.name = decide (n ≤ e.name)) :
    ((r.marked isMarked start es).filter (!·.2)).map Prod.fst = t := by
  induction h with
  | nil => rfl
  | @lineBreak start e es t hkind hname _ ih =>
    have hnl : e.lexeme.isNewline = true := Lexeme.isNewline_iff.2 hkind
    have hmark : isMarked e.name = false := by
      rw [hmarks e List.mem_cons_self, decide_eq_false (Nat.not_le.2 hname)]
    have hbehind : r.columnBehind start e.lexeme = 1 := by rw [Ruling.columnBehind, hnl, if_pos rfl]
    rw [Ruling.marked, hmark, r.gapBefore_of_newline start hkind, hbehind]
    simp [ih fun u hu => hmarks u (List.mem_cons_of_mem _ hu)]
  | @word start e es t hkind hgap htab hparen hle _ ih =>
    obtain ⟨hfilled, hbehind⟩ := Ruling.gapBefore_eq hindent hkind hgap htab hle
    rw [Ruling.marked, hfilled, hbehind, Lexeme.symbols_of_ne_newline hkind, hmarks e List.mem_cons_self, readText]
    have hrest := ih fun u hu => hmarks u (List.mem_cons_of_mem _ hu)
    by_cases hname : n ≤ e.name
    · rw [decide_eq_true hname, if_neg (Nat.not_lt.2 hname)]
      simp [hrest]
    · rw [decide_eq_false hname, if_pos (Nat.not_le.1 hname)]
      simp [hrest]

/-- Line feeds are not marked unless they belong to what is. -/
theorem Ruling.not_marked_of_lineFeed {isMarked : Nat → Bool} {es : List Entry} (r : Ruling) (start : Int)
    (hes : ∀ e ∈ es, isMarked e.name = true → lineFeed ∉ e.lexeme.symbols) :
    ∀ x ∈ r.marked isMarked start es, x.1 = lineFeed → x.2 = false := by
  induction es generalizing start with
  | nil => exact fun x hx => by cases hx
  | cons e es ih =>
    intro x hx hfeed
    rw [marked, List.mem_append, List.mem_append] at hx
    rcases hx with (hx | hx) | hx
    · obtain ⟨y, -, rfl⟩ := List.mem_map.1 hx
      rfl
    · obtain ⟨y, hy, rfl⟩ := List.mem_map.1 hx
      obtain rfl : y = lineFeed := hfeed
      have hnone := mt (hes e List.mem_cons_self) (not_not_intro hy)
      exact Bool.not_eq_true _ ▸ hnone
    · exact ih _ (fun u hu => hes u (List.mem_cons_of_mem _ hu)) x hx hfeed

namespace Grouping

/-- Whether a lexeme is one of the parentheses that were inserted. -/
def inserts (g : Grouping) (i : Nat) : Bool := g.pairs.any fun p => i = p.opening || i = p.closing

theorem inserts_iff (g : Grouping) (i : Nat) : g.inserts i = true ↔ ∃ p ∈ g.pairs, i = p.opening ∨ i = p.closing := by
  simp [inserts]

end Grouping

namespace Format

/-- A formatted file with the symbols of the parentheses that were inserted marked. -/
def marked (lexer : Lexer) (st : Style) (language : String) (file : List UInt8) : List (Symbol × Bool) :=
  let g := groupedIn lexer st language file
  putBack Prod.fst (carriageReturn, false) (carriageReturns (decode file).lines)
    (st.ruling.marked g.inserts 1 (aligned st g.strand).rows)

end Format

namespace FormatAux

open Format Grouping

theorem map_fst_format_marked (lexer : Lexer) (st : Style) (language : String) (file : List UInt8) :
    (Format.marked lexer st language file).map Prod.fst = putBack id carriageReturn (carriageReturns (decode file).lines)
      (st.ruling.written 1 (lexemes (aligned st (groupedIn lexer st language file).strand).rows)) := by
  have hmap := map_putBack Prod.fst id (carriageReturn, false) (carriageReturns (decode file).lines)
    (st.ruling.marked (groupedIn lexer st language file).inserts 1 (aligned st (groupedIn lexer st language file).strand).rows)
  rw [Ruling.map_fst_marked] at hmap
  exact hmap

/-- A source whose file is spaced plainly is plain. -/
theorem plain_sourceText {file : List UInt8} (h : spacedPlainly (decode file) = true) : Plain (sourceText file) := by
  have hreturns := carriageReturns_lines (decode file)
  have hdecode := (decode_eq_putBack file).1
  generalize carriageReturns (decode file).lines = returns at hreturns hdecode
  rw [hdecode] at h hreturns
  exact plain_of_putBack h hreturns.symm

/-- A source whose file does not end with a blank has no white space behind its last lexeme. -/
theorem spells_sourceText {lexer : Lexer} (st : Style) (language : String) {file : List UInt8}
    (hspaced : spacedPlainly (decode file) = true) (hlast : (decode file).getLast? ≠ some (.char ' '))
    (htiles : Token.Tiles 0 (sourceText file) (lexer (sourceText file))) :
    Spells st.inputTabSize (sourceText file) ((sourceIn st language file).annotate (lexer (sourceText file))).lexemes := by
  obtain ⟨t, rest, htext, hrest, hspells⟩ := (sourceIn st language file).spells_annotate htiles
  have hsource : sourceText file = t ++ rest := htext
  have hdecode := restoreEnds_lines hsource hrest.lineFeed_notMem
  have hplain := plain_sourceText hspaced
  rw [hsource] at hplain
  cases rest using List.reverseRecOn with
  | nil =>
    rw [List.append_nil] at hsource
    rwa [← hsource] at hspells
  | append_singleton rest x =>
    obtain ⟨hblank, hfeed⟩ := hrest x (by simp)
    have hx : x = .char ' ' := (hplain x (by simp) hblank).resolve_right hfeed
    rw [← List.append_assoc] at hdecode
    rw [hdecode, List.getLast?_concat, hx] at hlast
    exact absurd rfl hlast

/-- A file is laid out as it was read, between the parentheses that were inserted. -/
theorem laid_groupedIn {lexer : Lexer} (st : Style) (language : String) {file : List UInt8}
    (hspaced : spacedPlainly (decode file) = true) (hlast : (decode file).getLast? ≠ some (.char ' '))
    (htiles : Token.Tiles 0 (sourceText file) (lexer (sourceText file))) :
    Laid (strandIn lexer st language file).size 1 (groupedIn lexer st language file).strand.rows (sourceText file) ∧
      ∀ e ∈ (groupedIn lexer st language file).strand.rows, (groupedIn lexer st language file).inserts e.name =
        decide ((strandIn lexer st language file).size ≤ e.name) := by
  have hs : (strandIn lexer st language file).WellLinked := Strand.wellLinked_ofLexemes _ _
  obtain ⟨es, hshows, hgrown⟩ := exists_grown_grouped st
    (.sourceRead (strandIn lexer st language file).size language ::
      ((sourceIn st language file).annotate (lexer (sourceText file))).trace) hs ((sourceIn st language file).wellRead _)
  have hread : lexemes (strandIn lexer st language file).rows =
      ((sourceIn st language file).annotate (lexer (sourceText file))).lexemes.reverse.map Lexeme.flat := by
    rw [Strand.lexemes_rows, strandIn, Source.lexemes_read]
  have hlaid := (spells_sourceText st language hspaced hlast htiles).laid (plain_sourceText hspaced) hread
    (name_lt_of_mem_rows hs) (.nil _)
  rw [List.append_nil, List.append_nil] at hlaid
  have hgrownLaid := hgrown.laid hlaid
  rw [hs.shows.length_eq] at hgrownLaid
  have hrows : (groupedIn lexer st language file).strand.rows = es := hshows.rows_eq
  rw [hrows]
  refine ⟨hgrownLaid, ?_⟩
  intro e he
  have hlt : e.name < es.length := hshows.length_eq ▸ hshows.name_lt he
  rw [Bool.eq_iff_iff, inserts_iff, decide_eq_true_eq]
  refine (hgrown.isInserted_iff e.name).trans ?_
  rw [hs.shows.length_eq]
  exact ⟨And.left, fun hle => ⟨hle, hlt⟩⟩

end FormatAux

open FormatAux

/-- The parentheses are all that formatting without alignment changes in a file whose white space is blanks and line ends. -/
theorem Format.bytes_without_parentheses (lexer : Lexer) (st : Style) (language : String) (file : List UInt8)
    (halign : st.alignCalls = false) (hindent : st.indentWithTabs = false) (hst : st.outputTabSize ≠ 0)
    (hspaced : spacedPlainly (decode file) = true) (hlast : (decode file).getLast? ≠ some (.char ' '))
    (htiles : Token.Tiles 0 (sourceText file) (lexer (sourceText file))) :
    (∃ trace, bytes lexer st language file = .ok (encode ((marked lexer st language file).map Prod.fst), trace)) ∧
      encode (((marked lexer st language file).filter (!·.2)).map Prod.fst) = file := by
  refine ⟨?_, ?_⟩
  · obtain ⟨text, trace, hbytes, htext⟩ := exists_bytes_eq hst language htiles
    rw [map_fst_format_marked, ← htext]
    exact ⟨trace, hbytes⟩
  · obtain ⟨hlaid, hmarks⟩ := laid_groupedIn st language hspaced hlast htiles
    have hmixed := (ready_strandIn st language htiles).mixed
    have hsame : aligned st (groupedIn lexer st language file).strand = (groupedIn lexer st language file).strand := by
      rw [aligned, if_neg (by simp [halign])]
    rw [hsame] at hmixed
    rw [Format.marked, hsame]
    generalize (groupedIn lexer st language file).strand.rows = es at hmixed hlaid hmarks ⊢
    generalize (groupedIn lexer st language file).inserts = inserts at hmarks ⊢
    have hsymbols : ∀ e ∈ es, inserts e.name = true → lineFeed ∉ e.lexeme.symbols := by
      intro e he hmark
      rw [hmarks e he, decide_eq_true_eq] at hmark
      have hparen := hmixed.inserted e he hmark
      rw [Lexeme.symbols_of_ne_newline hparen.kind_ne]
      rcases hparen.text with ht | ht <;> rw [ht] <;> decide
    have hfeeds : ∀ x ∈ st.ruling.marked inserts 1 es, x.1 = lineFeed → (!x.2) = true := by
      intro x hx hfeed
      rw [st.ruling.not_marked_of_lineFeed 1 hsymbols x hx hfeed]
      rfl
    rw [filter_putBack rfl hfeeds]
    have hmap := map_putBack Prod.fst id (carriageReturn, false) (carriageReturns (decode file).lines)
      ((st.ruling.marked inserts 1 es).filter (!·.2))
    rw [hlaid.erase_marked hindent hmarks, ← (decode_eq_putBack file).1] at hmap
    exact (congrArg encode hmap).trans (encode_decode file)

namespace FormatAux

/-- A condition over two lines with both line ends, blanks in front of brackets, and a comment behind a comparison. -/
def spacedFile : List UInt8 :=
  [105, 102, 32, 40, 32, 97, 32, 61, 61, 32, 49, 32, 47, 42, 32, 120, 32, 42, 47, 13, 10, 32, 32, 32, 32, 124, 124,
    32, 98, 32, 41, 32, 99, 59, 10]

/-- The tokens of that file. -/
def spacedTokens : List Token :=
  [⟨0, .keyword, ofString "if"⟩, ⟨2, .text, ofString " "⟩, ⟨3, .punctuation, ofString "("⟩, ⟨4, .text, ofString " "⟩,
    ⟨5, .name, ofString "a"⟩, ⟨6, .text, ofString " "⟩, ⟨7, .operator, ofString "=="⟩, ⟨9, .text, ofString " "⟩,
    ⟨10, .numberInteger, ofString "1"⟩, ⟨11, .text, ofString " "⟩, ⟨12, .comment, ofString "/* x */"⟩,
    ⟨19, .text, ofString "\n    "⟩, ⟨24, .operator, ofString "||"⟩, ⟨26, .text, ofString " "⟩, ⟨27, .name, ofString "b"⟩,
    ⟨28, .text, ofString " "⟩, ⟨29, .punctuation, ofString ")"⟩, ⟨30, .text, ofString " "⟩, ⟨31, .name, ofString "c"⟩,
    ⟨32, .punctuation, ofString ";"⟩, ⟨33, .text, ofString "\n"⟩]

end FormatAux

theorem Format.bytes_spacedFile :
    spacedPlainly (decode spacedFile) = true ∧ (decode spacedFile).getLast? ≠ some (.char ' ') ∧
    Token.Tiles 0 (sourceText spacedFile) spacedTokens ∧
    (∃ trace, bytes (fun _ => spacedTokens) groupingStyle "c" spacedFile =
      .ok (encode ((marked (fun _ => spacedTokens) groupingStyle "c" spacedFile).map Prod.fst), trace)) ∧
    encode (((marked (fun _ => spacedTokens) groupingStyle "c" spacedFile).filter (!·.2)).map Prod.fst) = spacedFile :=
  ⟨by decide, by decide, by decide, bytes_without_parentheses (fun _ => spacedTokens) groupingStyle "c" spacedFile rfl rfl
    (by decide) (by decide) (by decide) (by decide)⟩

example : ((Format.marked (fun _ => spacedTokens) groupingStyle "c" spacedFile).filter (·.2)).map Prod.fst =
    [.char '(', .char ')'] := by
  decide +kernel

end CodeGroom
