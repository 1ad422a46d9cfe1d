import CodeGroom.Proofs.Alignment.Pushes
import CodeGroom.Proofs.Format.Code
import CodeGroom.Proofs.Layout.Spaced

/-!
# What is separate stays separate

Two lexemes with white space between them are written with white space between them, whatever passes are run: where there is room
between two lexemes a gap is written, and no pass takes the room away.
-/

namespace CodeGroom

open Text Entry

namespace Strand

/-- What is written of some lexemes of a strand from a column on: each lexeme with the gap in front of it. -/
def pieces (s : Strand) (r : Ruling) : Int → List Nat → List (Nat × Text)
  | _, [] => []
  | start, i :: is =>
    (i, r.gapBefore start (s.lexeme (some i))) :: pieces s r (r.columnBehind start (s.lexeme (some i))) is

/-- The text of a piece: the gap and the symbols of the lexeme. -/
def pieceText (s : Strand) (p : Nat × Text) : Text := p.2 ++ (s.lexeme (some p.1)).symbols

/-- White space is written between two lexemes, or between one of them and a lexeme that was put between them. -/
def Separates (s : Strand) (r : Ruling) (i j : Nat) : Prop :=
  ∃ (p m q : List (Nat × Text)) (g h : Text), s.pieces r 1 s.order = p ++ (i, g) :: (m ++ (j, h) :: q) ∧
    ∃ b ∈ m.flatMap s.pieceText ++ h, b.isBlank = true

variable {s : Strand} {r : Ruling} {start : Int} {room : Bool} {n i j : Nat} {p m q is : List Nat}

/-- The pieces are all that is written. -/
theorem flatMap_pieces (s : Strand) (r : Ruling) (start : Int) (is : List Nat) :
    (s.pieces r start is).flatMap s.pieceText = r.written start (is.map fun i => s.lexeme (some i)) := by
  induction is generalizing start with
  | nil => rfl
  | cons i is ih =>
    rw [pieces, List.flatMap_cons, ih]
    rfl

/-- Where there is room in front of a lexeme a gap is written. -/
theorem gapBefore_ne_nil (hr : 1 ≤ r.tabSize) {x : Lexeme} (hx : x.isNewline = false) (hlt : start < x.column) :
    r.gapBefore start x ≠ [] := by
  rw [Ruling.gapBefore, hx, Bool.false_or]
  cases hkeeps : r.keeps start x with
  | true =>
    simp only [Ruling.keeps, Bool.and_eq_true, decide_eq_true_eq] at hkeeps
    exact hkeeps.1.1
  | false =>
    simp only [Bool.false_eq_true, if_false, hlt, if_true]
    unfold Ruling.filling
    have hdiff : 0 < x.column - start := by omega
    split_ifs
    · intro hnil
      have hlength := congrArg List.length hnil
      simp only [List.length_append, copies, List.length_replicate, List.length_nil] at hlength
      have hsum := Int.mul_fdiv_add_fmod (x.column - start) r.tabSize
      have hdiv := Int.fdiv_nonneg (Int.le_of_lt hdiff) (Int.le_trans Int.one_nonneg hr)
      have hmod := Int.fmod_nonneg_of_pos (x.column - start) (Int.lt_of_lt_of_le Int.one_pos hr)
      obtain ⟨hnone, hrest⟩ : (x.column - start).fdiv r.tabSize = 0 ∧ (x.column - start).fmod r.tabSize = 0 := by omega
      rw [hnone, hrest, Int.mul_zero, Int.add_zero] at hsum
      omega
    · intro hnil
      have hlength := congrArg List.length hnil
      simp only [copies, List.length_replicate, List.length_nil] at hlength
      omega

theorem exists_blank_gapBefore (hr : 1 ≤ r.tabSize) {x : Lexeme} (hx : x.isNewline = false) (hgap : x.gap.IsGap)
    (hlt : start < x.column) : ∃ b ∈ r.gapBefore start x, b.isBlank = true := by
  obtain ⟨b, hb⟩ := List.exists_mem_of_ne_nil _ (gapBefore_ne_nil hr hx hlt)
  exact ⟨b, hb, (r.isGap_gapBefore start hgap b hb).1⟩

end Strand

namespace Entry

variable {n : Nat} {start : Int} {room : Bool} {e : Entry} {es : List Entry}

/-- What is written keeps to the columns of a spaced listing. -/
theorem Spaced.behind (r : Ruling) (h : Spaced n start room (e :: es)) :
    Spaced n (r.columnBehind start e.lexeme) (n ≤ e.name && (room || start < e.lexeme.column)) es := by
  cases h with
  | lineBreak hkind hname hrest =>
    rw [Ruling.columnBehind, if_pos (Lexeme.isNewline_iff.2 hkind)]
    refine hrest.mono (Int.le_refl _) ?_
    exact fun hfalse => by cases hfalse
  | word hkind htab hcol hgap hrest =>
    by_cases ht : tab ∈ e.lexeme.text
    · exact hrest.of_endsLine (htab ht).2 _ _
    · have hreached : (if r.keeps start e.lexeme then e.lexeme.column else max start e.lexeme.column) = e.lexeme.column := by
        split_ifs
        · rfl
        · exact Int.max_eq_right hcol
      rw [Ruling.columnBehind, if_neg fun hnl => hkind (Lexeme.isNewline_iff.1 hnl), hreached, advance_of_tab_notMem ht]
      exact hrest

end Entry

namespace Strand

variable {s t : Strand} {r : Ruling} {start : Int} {room : Bool} {n i j : Nat} {p m q is : List Nat}

theorem isNewline_of_kind_ne (h : (s.row i).kind ≠ .newline) : s.isNewline i = false := Lexeme.isNewline_eq_false h

/-- What is written behind some lexemes is spaced from where they end. -/
theorem pieces_append (hspaced : Spaced n start room ((p ++ q).map s.row)) :
    ∃ stop room', s.pieces r start (p ++ q) = s.pieces r start p ++ s.pieces r stop q ∧ Spaced n stop room' (q.map s.row) := by
  induction p generalizing start room with
  | nil => exact ⟨start, room, rfl, hspaced⟩
  | cons i p ih =>
    obtain ⟨stop, room', hpieces, hrest⟩ := ih (hspaced.behind r)
    refine ⟨stop, room', ?_, hrest⟩
    rw [List.cons_append, pieces, pieces, List.cons_append]
    exact congrArg _ hpieces

/-- If some lexemes that were not there are followed by one with a gap, there was room in front of them or white space is written
since. -/
theorem exists_blank_pieces (hr : 1 ≤ r.tabSize) (hgaps : ∀ k ∈ m ++ j :: q, (s.lexeme (some k)).gap.IsGap) (hm : ∀ k ∈ m, n ≤ k) (hj : j < n)
    (hgap : (s.lexeme (some j)).gap ≠ []) (hspaced : Spaced n start room ((m ++ j :: q).map s.row)) :
    ∃ h rest, s.pieces r start (m ++ j :: q) = s.pieces r start m ++ (j, h) :: rest ∧
      (room = true ∨ ∃ b ∈ (s.pieces r start m).flatMap s.pieceText ++ h, b.isBlank = true) := by
  induction m generalizing start room with
  | nil =>
    refine ⟨_, _, rfl, ?_⟩
    cases hspaced with
    | lineBreak hkind _ _ =>
      have hverbatim : r.gapBefore start (s.lexeme (some j)) = (s.lexeme (some j)).gap := r.gapBefore_of_newline start hkind
      obtain ⟨b, hb⟩ := List.exists_mem_of_ne_nil _ hgap
      refine .inr ⟨b, ?_, (hgaps j (by simp) b hb).1⟩
      rw [hverbatim]
      exact hb
    | word hkind _ _ hroom _ =>
      rcases hroom hj hgap with hroom | hlt
      · exact .inl hroom
      · exact .inr (exists_blank_gapBefore hr (isNewline_of_kind_ne hkind) (hgaps j (by simp)) hlt)
  | cons k m ih =>
    obtain ⟨h, rest, hpieces, hblank⟩ := ih (fun l hl => hgaps l (List.mem_cons_of_mem _ hl))
      (fun l hl => hm l (List.mem_cons_of_mem _ hl)) (hspaced.behind r)
    refine ⟨h, rest, ?_, ?_⟩
    · rw [List.cons_append, pieces, pieces, List.cons_append]
      exact congrArg _ hpieces
    · rcases hblank with hroom | ⟨b, hb, hblank⟩
      · simp only [Bool.and_eq_true, Bool.or_eq_true, decide_eq_true_eq] at hroom
        rcases hroom.2 with hroom | hlt
        · exact .inl hroom
        · cases hspaced with
          | lineBreak _ hname _ => exact absurd hname (Nat.not_lt.2 (hm k List.mem_cons_self))
          | word hkind _ _ _ _ =>
            obtain ⟨b, hb, hblank⟩ := exists_blank_gapBefore hr (isNewline_of_kind_ne hkind) (hgaps k (by simp)) hlt
            refine .inr ⟨b, ?_, hblank⟩
            simp [pieces, pieceText, hb]
      · refine .inr ⟨b, ?_, hblank⟩
        rw [pieces, List.flatMap_cons, List.append_assoc]
        exact List.mem_append_right _ hb

/-- In a spaced strand white space is written in front of a lexeme with a gap, behind the last one that was there. -/
theorem separates_of_spaced (hr : 1 ≤ r.tabSize) (hgaps : ∀ k ∈ s.order, (s.lexeme (some k)).gap.IsGap) (hspaced : Spaced n 1 false s.rows)
    (horder : s.order = p ++ i :: (m ++ j :: q)) (hi : i < n) (hm : ∀ k ∈ m, n ≤ k) (hj : j < n)
    (hgap : (s.lexeme (some j)).gap ≠ []) : s.Separates r i j := by
  have hrows : s.rows = (p ++ i :: (m ++ j :: q)).map s.row := by
    rw [← horder]
    rfl
  rw [hrows] at hspaced
  obtain ⟨stop, room, hpieces, hrest⟩ := pieces_append (r := r) hspaced
  have hnone : (n ≤ (s.row i).name && (room || stop < (s.row i).lexeme.column)) = false := by
    have hname : ¬n ≤ (s.row i).name := Nat.not_le.2 hi
    simp [hname]
  have hbehind := hrest.behind r
  rw [hnone] at hbehind
  have hgaps' : ∀ k ∈ m ++ j :: q, (s.lexeme (some k)).gap.IsGap := by
    intro k hk
    refine hgaps k ?_
    rw [horder]
    exact List.mem_append_right _ (List.mem_cons_of_mem _ hk)
  obtain ⟨h, rest, hpieces', hblank⟩ := exists_blank_pieces hr hgaps' hm hj hgap hbehind
  refine ⟨s.pieces r 1 p, _, rest, r.gapBefore stop (s.lexeme (some i)), h, ?_, hblank.resolve_left Bool.false_ne_true⟩
  rw [horder, hpieces, pieces]
  exact congrArg (fun l => s.pieces r 1 p ++ (i, r.gapBefore stop (s.lexeme (some i))) :: l) hpieces'

end Strand

namespace SeparatedAux

open Format FormatAux Grouping

variable {st : Style} {s : Strand} {trace : Trace}

/-- Aligning calls pushes lexemes to the right, and without aligning they stay. -/
theorem exists_pushed_aligned (st : Style) (hs : s.WellLinked) (hlevel : s.Level) :
    ∃ rows, Strand.Pushed rows s (aligned st s) := by
  unfold aligned
  split_ifs
  · exact ⟨_, CallAligner.pushed_align_of_level st hs hlevel⟩
  · exact ⟨fun _ => False, .refl _ s⟩

theorem level_grouped (st : Style) (trace : Trace) (hs : s.WellLinked) (hread : ∀ x ∈ s.lexemes, x.WellRead) (hlevel : s.Level) :
    (grouped st s trace).strand.WellLinked ∧ (grouped st s trace).strand.Level := by
  unfold grouped
  split_ifs
  · exact level_run st { strand := s, trace } hs (orderly_rows hread) rfl hlevel
  · exact ⟨hs, hlevel⟩

/-- No pass changes the gap of a lexeme. -/
theorem gap_aligned (st : Style) (trace : Trace) (hs : s.WellLinked) (hread : ∀ x ∈ s.lexemes, x.WellRead) {j : Nat}
    (hj : j ∈ s.order) : ((aligned st (grouped st s trace).strand).lexeme (some j)).gap = (s.lexeme (some j)).gap := by
  obtain ⟨es, hshows, hgrown⟩ := exists_grown_grouped st trace hs hread
  have hmem : (⟨j, (s.lexeme (some j)).flat.bare⟩ : Entry) ∈ bares s.rows :=
    List.mem_map_of_mem (f := change Lexeme.bare) (List.mem_map_of_mem (f := s.row) hj)
  rw [← hgrown.old_eq (name_lt_of_mem_rows hs)] at hmem
  obtain ⟨u, hu, heq⟩ := List.mem_map.1 (List.mem_filter.1 hmem).1
  obtain ⟨hname, hlexeme⟩ := Entry.mk.inj heq
  have hshown : ((grouped st s trace).strand.lexeme (some j)).gap = u.lexeme.gap := by
    rw [← hname, ← hshows.flat_eq u hu]
    rfl
  have hgap : u.lexeme.bare.gap = (s.lexeme (some j)).flat.bare.gap := congrArg Lexeme.gap hlexeme
  have hrecolumned := congrArg Lexeme.gap ((recolumned_aligned st hshows.linked.wellLinked).bare_eq j)
  exact (hrecolumned.trans hshown).trans hgap

/-- Neighbours of a strand stand in a longer one with new names between them. -/
theorem exists_split_of_nextOf {l : List Nat} {i j : Nat} (hs : s.WellLinked) (hnext : s.nextOf i = some j)
    (hl : l.filter (· < s.size) = s.order) :
    ∃ p m q, l = p ++ i :: (m ++ j :: q) ∧ i < s.size ∧ (∀ k ∈ m, s.size ≤ k) ∧ j < s.size := by
  have hi : i < s.size := by
    by_contra hout
    have hnone : s.cells[i]? = none := Array.getElem?_eq_none (Nat.not_lt.1 hout)
    rw [Strand.nextOf, hnone] at hnext
    cases hnext
  obtain ⟨p, q, horder⟩ := List.append_of_mem (hs.mem_iff.2 hi)
  have hlinked : s.Linked (p ++ i :: q) := horder ▸ hs
  rw [hlinked.nextOf_eq p i q rfl] at hnext
  obtain ⟨q, rfl⟩ := List.head?_eq_some_iff.1 hnext
  have hj : j < s.size := hlinked.lt_size (by simp)
  rw [horder] at hl
  obtain ⟨front, back, rfl, -, hback⟩ := List.filter_eq_append_iff.1 hl
  obtain ⟨p', back, rfl, -, -, hback⟩ := List.filter_eq_cons_iff.1 hback
  obtain ⟨m, q', rfl, hm, -, -⟩ := List.filter_eq_cons_iff.1 hback
  exact ⟨front ++ p', m, q', by simp, hi, fun k hk => by simpa using hm k hk, hj⟩

end SeparatedAux

open SeparatedAux Format FormatAux

/-- A source is read into a spaced strand. -/
theorem Source.spaced_read {src : Source} {ts : List Token} (htiles : Token.Tiles 0 src.text ts) (hin : 1 ≤ src.tabSize)
    (htabs : ∀ x ∈ (src.read ts).lexemes, x.inDirective = false → tab ∉ x.text) :
    Spaced (src.read ts).size 1 false (src.read ts).rows := by
  obtain ⟨text, -, -, -, hspells⟩ := src.spells_annotate htiles
  have hlexemes : lexemes (src.read ts).rows = (src.annotate ts).lexemes.reverse.map Lexeme.flat := by
    rw [Strand.lexemes_rows, lexemes_read]
  have hlinked : (src.read ts).WellLinked := Strand.wellLinked_ofLexemes _ _
  have htabs' : ∀ x ∈ (src.annotate ts).lexemes, x.inDirective = false → tab ∉ x.text := by
    intro x hx
    refine htabs x ?_
    rw [lexemes_read]
    exact List.mem_reverse.2 hx
  have hspaced : Spaced (src.read ts).size 1 false ((src.read ts).rows ++ []) :=
    hspells.spaced hin (src.mayFollow_annotate htiles) (fun x _ _ => .inr fun e he => by cases he) htabs' hlexemes
      (fun e he => hlinked.shows.name_lt he) (.nil _ _)
  rwa [List.append_nil] at hspaced

/-- What is separate stays separate. Whatever passes a style asks for, if tabs stand in no lexeme but in directives and tab stops are
some way apart, two lexemes with white space between them in the source are written with white space between them. -/
theorem Format.separates_passes (src : Source) {ts : List Token} (st : Style) (trace : Trace)
    (htiles : Token.Tiles 0 src.text ts) (hin : 1 ≤ src.tabSize) (hout : 1 ≤ st.outputTabSize)
    (htabs : ∀ x ∈ (src.read ts).lexemes, x.inDirective = false → tab ∉ x.text) :
    let t := (passes st (src.read ts) trace).1
    t.render st.ruling = .ok ((t.pieces st.ruling 1 t.order).flatMap t.pieceText) ∧
      ∀ i j, (src.read ts).nextOf i = some j → ((src.read ts).lexeme (some j)).gap ≠ [] → t.Separates st.ruling i j := by
  intro t
  obtain ⟨trace', hpasses⟩ := exists_passes_eq st (src.read ts) trace
  have ht : t = aligned st (grouped st (src.read ts) trace).strand := congrArg Prod.fst hpasses
  clear_value t
  have hs : (src.read ts).WellLinked := Strand.wellLinked_ofLexemes _ _
  have hread := src.wellRead ts
  have hsound : ∀ x ∈ (src.read ts).lexemes, x.Sound := (src.spelling_read htiles).2.2
  obtain ⟨es, hshows, hgrown⟩ := exists_grown_grouped st trace hs hread
  obtain ⟨hlinked, hlevel⟩ := level_grouped st trace hs hread (Source.level_read (Source.legible_of_tiles htiles))
  obtain ⟨rows, hpushed⟩ := exists_pushed_aligned st hlinked hlevel
  have hready := ready st trace hs hsound hread
  have hnames := name_lt_of_mem_rows hs
  rw [← ht] at hpushed hready
  -- There is room in what is written.
  have hroom : Spaced (src.read ts).size 1 false t.rows := by
    refine hpushed.spaced hlinked ?_
    rw [hshows.rows_eq, ← hs.shows.length_eq]
    refine hgrown.spaced ?_
    rw [hs.shows.length_eq]
    exact Source.spaced_read htiles hin htabs
  have horder : t.order.filter (· < (src.read ts).size) = (src.read ts).order := by
    rw [hpushed.recolumned.order_eq, hshows.order_eq, hs.shows.order_eq, ← hs.shows.length_eq]
    exact hgrown.names_old hnames
  have hgaps : ∀ k ∈ t.order, (t.lexeme (some k)).gap.IsGap := fun k hk =>
    (hready.sound_lexemes _ (List.mem_map_of_mem hk)).gap
  refine ⟨?_, ?_⟩
  · have hst : st.outputTabSize ≠ 0 := by omega
    rw [Strand.render_eq hst hready.sound_lexemes, Strand.flatMap_pieces]
    rfl
  · intro i j hnext hgap
    obtain ⟨p, m, q, hsplit, hi, hm, hj⟩ := exists_split_of_nextOf hs hnext horder
    have hgap' : (t.lexeme (some j)).gap ≠ [] := by
      rw [ht, gap_aligned st trace hs hread (hs.mem_iff.2 hj)]
      exact hgap
    exact Strand.separates_of_spaced hout hgaps hroom hsplit hi hm hj hgap'

namespace SeparatedAux

/-- A condition with tabs and blanks behind a directive with a tab in it. -/
def widenedSource : Source := { text := Text.ofString "#if\ta\nif (a\t== 1 || b)\tc;\n", tabSize := 3 }

/-- The tokens of that source. -/
def widenedTokens : List Token :=
  [⟨0, .directive, Text.ofString "#if\ta\n"⟩, ⟨6, .keyword, Text.ofString "if"⟩, ⟨8, .text, Text.ofString " "⟩,
    ⟨9, .punctuation, Text.ofString "("⟩, ⟨10, .name, Text.ofString "a"⟩, ⟨11, .text, Text.ofString "\t"⟩,
    ⟨12, .operator, Text.ofString "=="⟩, ⟨14, .text, Text.ofString " "⟩, ⟨15, .numberInteger, Text.ofString "1"⟩,
    ⟨16, .text, Text.ofString " "⟩, ⟨17, .operator, Text.ofString "||"⟩, ⟨19, .text, Text.ofString " "⟩,
    ⟨20, .name, Text.ofString "b"⟩, ⟨21, .punctuation, Text.ofString ")"⟩, ⟨22, .text, Text.ofString "\t"⟩,
    ⟨23, .name, Text.ofString "c"⟩, ⟨24, .punctuation, Text.ofString ";"⟩, ⟨25, .text, Text.ofString "\n"⟩]

/-- A style that groups conditions and whose tab stops are further apart than those of the source. -/
def widerStyle : Style := { groupConditions := true, outputTabSize := 8 }

end SeparatedAux

theorem Format.separates_passes_widenedSource :
    Token.Tiles 0 widenedSource.text widenedTokens ∧ 1 ≤ widenedSource.tabSize ∧ 1 ≤ widerStyle.outputTabSize ∧
    (∀ x ∈ (widenedSource.read widenedTokens).lexemes, x.inDirective = false → tab ∉ x.text) ∧
    let t := (passes widerStyle (widenedSource.read widenedTokens) []).1
    t.render widerStyle.ruling = .ok ((t.pieces widerStyle.ruling 1 t.order).flatMap t.pieceText) ∧
      ∀ i j, (widenedSource.read widenedTokens).nextOf i = some j → ((widenedSource.read widenedTokens).lexeme (some j)).gap ≠ [] →
        t.Separates widerStyle.ruling i j :=
  ⟨by decide, by decide, by decide, by decide +kernel,
    separates_passes widenedSource widerStyle [] (by decide) (by decide) (by decide) (by decide +kernel)⟩

example : (passes widerStyle (widenedSource.read widenedTokens) []).1.render widerStyle.ruling =
    .ok (Text.ofString "#if\ta\nif ((a == 1) || b)  c;\n") := by decide +kernel

end CodeGroom
