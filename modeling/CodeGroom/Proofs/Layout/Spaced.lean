import CodeGroom.Proofs.Alignment.Moves
import CodeGroom.Proofs.Annotate.Followers
import CodeGroom.Proofs.Layout.Visible

/-!
# Room between lexemes

No lexeme of a line begins in front of the end of the one before it, and where there was white space between two lexemes of the
source there is room between them, beside the parentheses inserted there. Reading a source gives such a listing, and inserting
parentheses and pushing lexemes to the right keep it.
-/

namespace CodeGroom

open Grouping

namespace Entry

/-- Nothing stands in front of the end of the line. -/
def EndsLine (es : List Entry) : Prop := ∀ e, es.head? = some e → e.kind = .newline

/-- Entries from a column on, each of which begins behind the one before it on its line. In front of one that is named below `n` and
has a gap there is room, behind the last one named so; `room` says whether there is some in front of the column already. A tab
stands in a directive only, and at the end of its line. -/
inductive Spaced (n : Nat) : Int → Bool → List Entry → Prop where
  | nil (start : Int) (room : Bool) : Spaced n start room []
  | lineBreak {start : Int} {room : Bool} {e : Entry} {es : List Entry} :
      e.kind = .newline → e.name < n → Spaced n 1 false es → Spaced n start room (e :: es)
  | word {start : Int} {room : Bool} {e : Entry} {es : List Entry} :
      e.kind ≠ .newline → (Text.tab ∈ e.lexeme.text → e.inDirective = true ∧ EndsLine es) → start ≤ e.lexeme.column →
      (e.name < n → e.lexeme.gap ≠ [] → room = true ∨ start < e.lexeme.column) →
      Spaced n (e.lexeme.column + e.lexeme.width) (n ≤ e.name && (room || start < e.lexeme.column)) es →
      Spaced n start room (e :: es)

variable {n m : Nat} {start start' : Int} {room room' : Bool} {es es' p q : List Entry} {e x y : Entry}

theorem EndsLine.elim (h : EndsLine (e :: es)) (he : e.kind ≠ .newline) {P : Prop} : P := absurd (h e rfl) he

/-- More room does no harm. -/
theorem Spaced.mono (h : Spaced n start room es) (hle : start' ≤ start) (hroom : room = true → room' = true) :
    Spaced n start' room' es := by
  induction h generalizing start' room' with
  | nil => exact .nil _ _
  | lineBreak hkind hname hrest _ => exact .lineBreak hkind hname hrest
  | @word start room e es hkind htab hcol hgap _ ih =>
    have hmore : room = true ∨ start < e.lexeme.column → room' = true ∨ start' < e.lexeme.column := by
      rintro (hr | hlt)
      · exact .inl (hroom hr)
      · exact .inr (Int.lt_of_le_of_lt hle hlt)
    refine .word hkind htab (Int.le_trans hle hcol) (fun hname hne => hmore (hgap hname hne)) (ih (Int.le_refl _) ?_)
    simp only [Bool.and_eq_true, Bool.or_eq_true, decide_eq_true_eq]
    exact And.imp_right hmore

/-- At the end of a line it does not matter where the line ends. -/
theorem Spaced.of_endsLine (h : Spaced n start room es) (hends : EndsLine es) (start' : Int) (room' : Bool) :
    Spaced n start' room' es := by
  cases h with
  | nil => exact .nil _ _
  | lineBreak hkind hname hrest => exact .lineBreak hkind hname hrest
  | word hkind => exact hends.elim hkind

theorem endsLine_shiftLine {k : Int} (h : EndsLine es) : EndsLine (Entry.shiftLine k es) := by
  cases es with
  | nil => exact h
  | cons e es =>
    intro u hu
    obtain rfl := Option.some.inj hu
    exact h e rfl

/-- A line that is moved as a whole is spaced from the moved column on. -/
theorem Spaced.shiftLine (h : Spaced n start room es) (k : Int) : Spaced n (start + k) room (Entry.shiftLine k es) := by
  induction h with
  | nil => exact .nil _ _
  | @lineBreak start room e es hkind hname hrest _ =>
    rw [Entry.shiftLine, if_pos (Lexeme.isNewline_iff.2 hkind)]
    exact .lineBreak hkind hname hrest
  | @word start room e es hkind htab hcol hgap _ ih =>
    rw [Entry.shiftLine, if_neg fun hnl => hkind (Lexeme.isNewline_iff.1 hnl)]
    have hbehind : e.lexeme.column + k + e.lexeme.width = e.lexeme.column + e.lexeme.width + k := Int.add_right_comm _ _ _
    have hlt : (start + k < e.lexeme.column + k) = (start < e.lexeme.column) := by simp
    refine Spaced.word (e := e.change (·.shift k)) hkind (fun ht => ⟨(htab ht).1, endsLine_shiftLine (htab ht).2⟩)
      (Int.add_le_add_right hcol k) ?_ ?_
    · intro hname hne
      show room = true ∨ start + k < e.lexeme.column + k
      rw [hlt]
      exact hgap hname hne
    · show Spaced n (e.lexeme.column + k + e.lexeme.width) (n ≤ e.name && (room || decide (start + k < e.lexeme.column + k))) _
      simp only [hbehind, hlt]
      exact ih

/-- What is spaced from a column on is spaced from the column of its first lexeme on. -/
theorem Spaced.from_column (h : Spaced n start room (x :: q)) (hx : x.kind ≠ .newline) :
    start ≤ x.lexeme.column ∧ Spaced n x.lexeme.column (room || start < x.lexeme.column) (x :: q) := by
  cases h with
  | lineBreak hkind => exact absurd hkind hx
  | word hkind htab hcol hgap hrest =>
    refine ⟨hcol, .word hkind htab (Int.le_refl _) ?_ (by simpa using hrest)⟩
    simpa using hgap

/-- A parenthesis can be put in front of a lexeme. -/
theorem Spaced.opening (h : Spaced n start room (x :: q)) (hx : x.kind ≠ .newline) (hm : n ≤ m) :
    Spaced n start room (⟨m, openingBefore x.lexeme⟩ :: Entry.shiftLine 1 (x :: q)) := by
  obtain ⟨hcol, hthere⟩ := h.from_column hx
  have hroom : (n ≤ m && (room || start < x.lexeme.column)) = (room || decide (start < x.lexeme.column)) := by simp [hm]
  refine Spaced.word (e := ⟨m, openingBefore x.lexeme⟩) (by simp [Entry.kind, openingBefore]) ?_ hcol ?_ ?_
  · intro htab
    exact absurd htab (by show Text.tab ∉ [Symbol.char '(']; decide)
  · intro hname
    exact absurd hname (Nat.not_lt.2 hm)
  · show Spaced n (x.lexeme.column + 1) (n ≤ m && (room || start < x.lexeme.column)) _
    rw [hroom]
    exact hthere.shiftLine 1

/-- A parenthesis can be put behind a lexeme outside directives. -/
theorem Spaced.closing (h : Spaced n start room (y :: q)) (hy : y.kind ≠ .newline) (hdir : y.inDirective = false) (hm : n ≤ m) :
    Spaced n start room (y :: ⟨m, closingAfter y.lexeme⟩ :: Entry.shiftLine 1 q) := by
  cases h with
  | lineBreak hkind => exact absurd hkind hy
  | word hkind htab hcol hgap hrest =>
    refine .word hkind ?_ hcol hgap (.word (by simp [Entry.kind, closingAfter]) ?_ (Int.le_refl _) ?_ ?_)
    · intro ht
      have hin := (htab ht).1
      rw [hdir] at hin
      cases hin
    · intro htab
      exact absurd htab (by show Text.tab ∉ [Symbol.char ')']; decide)
    · intro hname
      exact absurd hname (Nat.not_lt.2 hm)
    · show Spaced n (y.lexeme.column + y.lexeme.width + 1) _ _
      refine (hrest.shiftLine 1).mono (Int.le_refl _) ?_
      intro hroom
      simpa [hm, closingAfter] using hroom

/-- What stands in front of a place does not depend on what stands behind it. -/
theorem Spaced.replace (hq : ∀ start room, Spaced n start room q → Spaced n start room es') (hends : EndsLine q → EndsLine es')
    (p : List Entry) (h : Spaced n start room (p ++ q)) : Spaced n start room (p ++ es') := by
  induction p generalizing start room with
  | nil => exact hq _ _ h
  | cons e p ih =>
    cases h with
    | lineBreak hkind hname hrest => exact .lineBreak hkind hname (ih hrest)
    | word hkind htab hcol hgap hrest =>
      refine .word hkind (fun ht => ⟨(htab ht).1, ?_⟩) hcol hgap (ih hrest)
      cases p with
      | nil => exact hends (htab ht).2
      | cons u p => exact fun v hv => (htab ht).2 v hv

end Entry

namespace Grouping

open Entry

variable {n m : Nat} {start : Int} {room : Bool} {es₀ es es' : List Entry} {ps : List Insertion}

/-- An insertion leaves the room that there was. -/
theorem Paired.spaced (h : Paired m es es') (hm : n ≤ m) (hes : Spaced n start room es) : Spaced n start room es' := by
  obtain @⟨p, q, p', q', x, y, hx, hsplit, hy, hdir⟩ := h
  have hxkind := kind_ne_newline_of_code hx
  have hykind := kind_ne_newline_of_code hy
  have hopened := Spaced.replace (fun _ _ hq => hq.opening hxkind hm) (fun hends => hends.elim hxkind) p hes
  rw [hsplit] at hopened
  exact Spaced.replace (fun _ _ hq => hq.closing hykind hdir (Nat.le_succ_of_le hm)) (fun hends => hends.elim hykind) p' hopened

theorem Grown.spaced (h : Grown es₀ es ps) (hes : Spaced es₀.length start room es₀) : Spaced es₀.length start room es := by
  induction h with
  | start => exact hes
  | pair region hgrown hpaired ih =>
    have hlength := hgrown.length_eq
    exact hpaired.spaced (by omega) ih

end Grouping

open Text Entry

/-- In a source whose tab stops are some way apart the lexemes are spaced as they were read, if tabs stand in directives only. -/
theorem Spells.spaced {n : Nat} {tabSize : Int} {t : Text} {xs : List Lexeme} {es es' : List Entry} (h : Spells tabSize t xs)
    (hpos : 1 ≤ tabSize) (hchain : xs.IsChain Lexeme.MayFollow)
    (hends : ∀ x, xs.head? = some x → x.inDirective = true → x.kind = .newline ∨ EndsLine es')
    (htabs : ∀ x ∈ xs, x.inDirective = false → tab ∉ x.text) (hes : lexemes es = xs.reverse.map Lexeme.flat)
    (hnames : ∀ e ∈ es, e.name < n) (hrest : Spaced n ((expandedWidth tabSize (lastLine t) : Int) + 1) false es') :
    Spaced n 1 false (es ++ es') := by
  induction h generalizing es es' with
  | nil =>
    obtain rfl : es = [] := List.map_eq_nil_iff.1 hes
    exact hrest
  | @word t xs x _ hgap hkind hlf hcol ih =>
    obtain ⟨es, i, rfl, hread⟩ := exists_eq_concat hes
    obtain ⟨hfirst, hchain⟩ := List.isChain_cons.1 hchain
    have hgapped := add_length_le_expandedWidth hpos (lastLine t) x.gap
    rw [← lastLine_append hgap.lineFeed_notMem] at hgapped
    have hbehind := add_length_le_expandedWidth hpos (lastLine (t ++ x.gap)) x.text
    rw [← lastLine_append hlf] at hbehind
    have hlength : x.gap ≠ [] → 0 < x.gap.length := List.length_pos_iff.2
    have hword : Spaced n ((expandedWidth tabSize (lastLine t) : Int) + 1) false (⟨i, x.flat⟩ :: es') := by
      refine .word hkind ?_ ?_ ?_ (hrest.mono ?_ ?_)
      · intro htab
        cases hdir : x.inDirective with
        | false => exact absurd htab (htabs x List.mem_cons_self hdir)
        | true => exact ⟨hdir, (hends x rfl hdir).resolve_left hkind⟩
      · show _ ≤ x.column
        omega
      · intro _ hne
        have hpositive := hlength hne
        refine .inr ?_
        show _ < x.column
        omega
      · show x.column + x.text.length ≤ _
        omega
      · exact fun hroom => by cases hroom
    have hprefix := ih hchain (fun y hy hdir => ?_) (fun y hy => htabs y (List.mem_cons_of_mem _ hy)) hread
      (fun e he => hnames e (List.mem_append_left _ he)) hword
    · simpa using hprefix
    · rcases hfirst y hy hdir with hk | hk
      · exact .inl hk
      · exact absurd hk hkind
  | @newline t xs x k _ hgap hkind hbreaks ih =>
    obtain ⟨es, i, rfl, hread⟩ := exists_eq_concat hes
    rw [List.replicate_succ', ← List.append_assoc, lastLine_append_lineFeed] at hrest
    have hbreak : Spaced n ((expandedWidth tabSize (lastLine t) : Int) + 1) false (⟨i, x.flat⟩ :: es') :=
      .lineBreak hkind (hnames _ (by simp)) hrest
    have hprefix := ih (List.isChain_cons.1 hchain).2 (fun y _ _ => .inr fun e he => by obtain rfl := Option.some.inj he; exact hkind)
      (fun y hy => htabs y (List.mem_cons_of_mem _ hy)) hread (fun e he => hnames e (List.mem_append_left _ he)) hbreak
    simpa using hprefix

namespace Strand

variable {s t : Strand} {rows : Nat → Prop} {n : Nat} {start start' : Int} {room : Bool}

/-- The entry of a lexeme in a listing with columns. -/
def row (s : Strand) (i : Nat) : Entry := ⟨i, (s.lexeme (some i)).flat⟩

/-- Of a lexeme that was pushed only the column changed. -/
theorem Pushed.row_eq (h : Pushed rows s t) (i : Nat) :
    t.row i = (s.row i).change fun x => { x with column := t.columnAt i } := by
  rw [row, h.recolumned.lexeme_eq]
  rfl

theorem Pushed.endsLine (h : Pushed rows s t) {is : List Nat} (hends : EndsLine (is.map s.row)) : EndsLine (is.map t.row) := by
  intro e he
  cases is with
  | nil => cases he
  | cons i is =>
    obtain rfl := Option.some.inj he
    rw [h.row_eq]
    exact hends (s.row i) rfl

theorem Pushed.spaced_map (h : Pushed rows s t) (is : List Nat) {p : List Nat} (hlinked : s.Linked (p ++ is))
    (hspaced : Spaced n start room (is.map s.row))
    (hmoved : ∀ i, is.head? = some i → s.isNewline i = false → start' - start ≤ t.columnAt i - s.columnAt i) :
    Spaced n start' room (is.map t.row) := by
  induction is generalizing p start start' room with
  | nil => exact .nil _ _
  | cons i is ih =>
    have hlinked' : s.Linked ((p ++ [i]) ++ is) := by rwa [List.append_assoc, List.singleton_append]
    rw [List.map_cons] at hspaced ⊢
    rw [h.row_eq]
    cases hspaced with
    | lineBreak hkind hname hrest =>
      refine .lineBreak hkind hname (ih hlinked' hrest ?_)
      intro j _ _
      have hle := h.column_le j
      omega
    | word hkind htab hcol hgap hrest =>
      have hnewline : s.isNewline i = false := by
        rw [← Bool.not_eq_true]
        exact fun hnl => hkind (Lexeme.isNewline_iff.1 hnl)
      have hcolumn : (s.row i).lexeme.column = s.columnAt i := rfl
      have hmoved' := hmoved i rfl hnewline
      rw [hcolumn] at hcol hgap hrest
      have hroom : room = true ∨ start < s.columnAt i → room = true ∨ start' < t.columnAt i := by
        rintro (hroom | hlt)
        · exact .inl hroom
        · exact .inr (by omega)
      have hthere : Spaced n (t.columnAt i + (s.row i).lexeme.width)
          (n ≤ (s.row i).name && (room || start < s.columnAt i)) (is.map t.row) := by
        refine ih hlinked' hrest ?_
        intro j hj hjnewline
        have hnext : s.nextOf i = some j := by rw [hlinked.nextOf_eq p i is rfl, hj]
        have hle := h.gap_le i j hnext hnewline hjnewline
        omega
      refine .word hkind (fun ht => And.imp_right h.endsLine (htab ht)) ?_ (fun hname hne => hroom (hgap hname hne))
        (hthere.mono (Int.le_refl _) ?_)
      · show start' ≤ t.columnAt i
        omega
      · simp only [Bool.and_eq_true, Bool.or_eq_true, decide_eq_true_eq]
        exact And.imp_right hroom

/-- Pushing lexemes to the right leaves the room that there was. -/
theorem Pushed.spaced (h : Pushed rows s t) (hs : s.WellLinked) (hspaced : Spaced n 1 false s.rows) :
    Spaced n 1 false t.rows := by
  have hrows : t.rows = s.order.map t.row := by
    rw [← h.recolumned.order_eq]
    rfl
  rw [hrows]
  refine h.spaced_map s.order (p := []) hs hspaced ?_
  intro i _ _
  have hle := h.column_le i
  omega

end Strand

end CodeGroom
