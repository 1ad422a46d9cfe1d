import CodeGroom.Proofs.Grouping.Inserted
import CodeGroom.Proofs.Layout.Visible

/-!
# Lines that parentheses were inserted into

No lexeme begins in front of the end of the one before it on its line. An insertion keeps that, and it keeps what the lexemes of the
source are written as with the white space between them: the rest of the line moves right by as much as the parenthesis takes.
-/

namespace CodeGroom

namespace Text

@[simp] theorem copies_zero (x : Symbol) : copies 0 x = [] := rfl

/-- A text of blanks only is a number of blanks. -/
theorem eq_copies {t : Text} {y : Symbol} (ht : ∀ x ∈ t, x = y) : t = copies t.length y := List.eq_replicate_iff.2 ⟨rfl, ht⟩

end Text

open Grouping

namespace Entry

variable {n m : Nat} {start : Int} {es es' p q : List Entry} {e x y : Entry} {t u : Text}

/-- The text of an entry that is named below `n`. The others were inserted. -/
def readText (n : Nat) (e : Entry) : Text := if e.name < n then e.lexeme.text else []

/-- Entries from a column on, each of which begins behind the one before it on its line, and what is written of those named below
`n` at their columns. The others are parentheses. -/
inductive Laid (n : Nat) : Int → List Entry → Text → Prop where
  | nil (start : Int) : Laid n start [] []
  | lineBreak {start : Int} {e : Entry} {es : List Entry} {t : Text} :
      e.kind = .newline → e.name < n → Laid n 1 es t → Laid n start (e :: es) (e.lexeme.gap ++ (e.lexeme.symbols ++ t))
  | word {start : Int} {e : Entry} {es : List Entry} {t : Text} :
      e.kind ≠ .newline → (∀ b ∈ e.lexeme.gap, b = .char ' ') → Text.tab ∉ e.lexeme.text →
      (n ≤ e.name → e.lexeme.IsParenthesis) → start ≤ e.lexeme.column → Laid n (e.lexeme.column + e.lexeme.width) es t →
      Laid n start (e :: es) (Text.copies (e.lexeme.column - start) (.char ' ') ++ (e.readText n ++ t))

/-- A parenthesis takes its place, and nothing of it is left when it is taken away. -/
theorem Laid.parenthesis (hname : n ≤ e.name) (hparen : e.lexeme.IsParenthesis) (hle : start ≤ e.lexeme.column)
    (hrest : Laid n (e.lexeme.column + 1) es t) :
    Laid n start (e :: es) (Text.copies (e.lexeme.column - start) (.char ' ') ++ t) := by
  have hgap : ∀ b ∈ e.lexeme.gap, b = .char ' ' := by simp [hparen.gap]
  have htab : Text.tab ∉ e.lexeme.text := by rcases hparen.text with ht | ht <;> rw [ht] <;> decide
  have hwidth : (e.lexeme.width : Int) = 1 := by rcases hparen.text with ht | ht <;> rw [Lexeme.width, ht] <;> rfl
  have hword := Laid.word hparen.kind_ne hgap htab (fun _ => hparen) hle (hwidth ▸ hrest)
  rwa [readText, if_neg (Nat.not_lt.2 hname), List.nil_append] at hword

/-- A line that is moved as a whole is written alike from the moved column on. -/
theorem Laid.shiftLine (h : Laid n start es t) (k : Int) : Laid n (start + k) (Entry.shiftLine k es) t := by
  induction h with
  | nil => exact .nil _
  | @lineBreak start e es t hkind hname hrest _ =>
    rw [Entry.shiftLine, if_pos (Lexeme.isNewline_iff.2 hkind)]
    exact .lineBreak hkind hname hrest
  | @word start e es t hkind hgap htab hparen hle _ ih =>
    rw [Entry.shiftLine, if_neg fun hnl => hkind (Lexeme.isNewline_iff.1 hnl)]
    have hparen' : n ≤ e.name → (e.lexeme.shift k).IsParenthesis := fun hname =>
      ⟨(hparen hname).kind, (hparen hname).text, (hparen hname).gap⟩
    have hbehind : (e.lexeme.shift k).column + (e.lexeme.shift k).width = e.lexeme.column + e.lexeme.width + k :=
      Int.add_right_comm _ _ _
    have hdistance : (e.lexeme.shift k).column - (start + k) = e.lexeme.column - start := Int.add_sub_add_right _ _ _
    have hmoved := Laid.word (e := e.change (·.shift k)) hkind hgap htab hparen' (Int.add_le_add_right hle k)
      (show Laid n ((e.lexeme.shift k).column + (e.lexeme.shift k).width) (Entry.shiftLine k es) t from hbehind ▸ ih)
    rw [show (e.change (·.shift k)).lexeme.column - (start + k) = e.lexeme.column - start from hdistance] at hmoved
    exact hmoved

/-- What is laid out from a column on is laid out from the column of its first lexeme on, but for the blanks in front of it. -/
theorem Laid.from_column (h : Laid n start (x :: q) t) (hx : x.kind ≠ .newline) : start ≤ x.lexeme.column ∧
    ∃ u, t = Text.copies (x.lexeme.column - start) (.char ' ') ++ u ∧ Laid n x.lexeme.column (x :: q) u := by
  cases h with
  | lineBreak hkind => exact absurd hkind hx
  | word hkind hgap htab hparen hle hrest =>
    refine ⟨hle, _, rfl, ?_⟩
    have hthere := Laid.word hkind hgap htab hparen (Int.le_refl _) hrest
    rwa [Int.sub_self, Text.copies_zero, List.nil_append] at hthere

/-- A parenthesis can be put in front of a lexeme. -/
theorem Laid.opening (h : Laid n start (x :: q) t) (hx : x.kind ≠ .newline) (hm : n ≤ m) :
    Laid n start (⟨m, openingBefore x.lexeme⟩ :: Entry.shiftLine 1 (x :: q)) t := by
  obtain ⟨hle, u, rfl, hthere⟩ := h.from_column hx
  exact .parenthesis (e := ⟨m, openingBefore x.lexeme⟩) hm ⟨.inl rfl, .inl rfl, rfl⟩ hle (hthere.shiftLine 1)

/-- A parenthesis can be put behind a lexeme. -/
theorem Laid.closing (h : Laid n start (y :: q) t) (hy : y.kind ≠ .newline) (hm : n ≤ m) :
    Laid n start (y :: ⟨m, closingAfter y.lexeme⟩ :: Entry.shiftLine 1 q) t := by
  cases h with
  | lineBreak hkind => exact absurd hkind hy
  | word hkind hgap htab hparen hle hrest =>
    have hclosing := Laid.parenthesis (e := ⟨m, closingAfter y.lexeme⟩) hm ⟨.inr rfl, .inr rfl, rfl⟩ (Int.le_refl _)
      (hrest.shiftLine 1)
    rw [Int.sub_self, Text.copies_zero, List.nil_append] at hclosing
    exact .word hkind hgap htab hparen hle hclosing

/-- What stands in front of a place does not depend on what stands behind it. -/
theorem Laid.replace (hq : ∀ start t, Laid n start q t → Laid n start es' t) (p : List Entry) (h : Laid n start (p ++ q) t) :
    Laid n start (p ++ es') t := by
  induction p generalizing start t with
  | nil => exact hq _ _ h
  | cons e p ih =>
    cases h with
    | lineBreak hkind hname hrest => exact .lineBreak hkind hname (ih hrest)
    | word hkind hgap htab hparen hle hrest => exact .word hkind hgap htab hparen hle (ih hrest)

end Entry

namespace Grouping

open Entry

variable {n m : Nat} {start : Int} {es₀ es es' : List Entry} {ps : List Insertion} {t : Text}

/-- An insertion keeps what the lexemes of the source are written as. -/
theorem Paired.laid (h : Paired m es es') (hm : n ≤ m) (hes : Laid n start es t) : Laid n start es' t := by
  obtain @⟨p, q, p', q', x, y, hx, hsplit, hy, -⟩ := h
  have hopened := Laid.replace (fun _ _ hq => hq.opening (kind_ne_newline_of_code hx) hm) p hes
  rw [hsplit] at hopened
  exact Laid.replace (fun _ _ hq => hq.closing (kind_ne_newline_of_code hy) (Nat.le_succ_of_le hm)) p' hopened

theorem Grown.laid (h : Grown es₀ es ps) (hes : Laid es₀.length start es₀ t) : Laid es₀.length start es t := by
  induction h with
  | start => exact hes
  | pair region hgrown hpaired ih =>
    have hlength := hgrown.length_eq
    exact hpaired.laid (by omega) ih

end Grouping

/-- A text with no other white space than blanks and line feeds. -/
def Text.Plain (t : Text) : Prop := ∀ x ∈ t, x.isBlank = true → x = .char ' ' ∨ x = lineFeed

namespace Text.Plain

variable {t u : Text}

theorem notMem {x : Symbol} (h : t.Plain) (hblank : x.isBlank = true) (hx : x ≠ .char ' ' ∧ x ≠ lineFeed) : x ∉ t := by
  intro hmem
  rcases h x hmem hblank with heq | heq
  · exact hx.1 heq
  · exact hx.2 heq

theorem left (h : Plain (t ++ u)) : t.Plain := fun x hx => h x (List.mem_append_left u hx)

theorem right (h : Plain (t ++ u)) : u.Plain := fun x hx => h x (List.mem_append_right t hx)

end Text.Plain

open Text Entry

/-- In a text without other white space than blanks the reader counts symbols. -/
theorem Text.Plain.expandedWidth_lastLine {t u : Text} (h : Plain (t ++ u)) (hu : lineFeed ∉ u) (tabSize : Int) :
    expandedWidth tabSize (lastLine (t ++ u)) = (lastLine t).length + u.length := by
  obtain ⟨p, hp, -⟩ := exists_append_lastLine (t ++ u)
  have hline : Plain (lastLine (t ++ u)) := by
    rw [hp] at h
    exact h.right
  rw [expandedWidth_eq_length, lastLine_append hu, List.length_append]
  intro x hx
  refine ⟨?_, ?_, ?_⟩
  · rintro rfl
    exact hline.notMem (by decide) (by decide) hx
  · rintro rfl
    exact hline.notMem (by decide) (by decide) hx
  · rintro rfl
    exact lineFeed_notMem_lastLine _ hx

/-- The lexemes of a source without other white space than blanks and line feeds are laid out as they were read. -/
theorem Spells.laid {n : Nat} {tabSize : Int} {t u : Text} {xs : List Lexeme} {es es' : List Entry} (h : Spells tabSize t xs)
    (ht : t.Plain) (hes : lexemes es = xs.reverse.map Lexeme.flat) (hnames : ∀ e ∈ es, e.name < n)
    (hrest : Laid n ((lastLine t).length + 1) es' u) : Laid n 1 (es ++ es') (t ++ u) := by
  induction h generalizing es es' u with
  | nil =>
    obtain rfl : es = [] := List.map_eq_nil_iff.1 hes
    exact hrest
  | @word t xs x _ hgap hkind hlf hcol ih =>
    obtain ⟨es, i, rfl, hread⟩ := exists_eq_concat hes
    have hblanks : ∀ b ∈ x.gap, b = .char ' ' := fun b hb =>
      (ht.left.right b hb (hgap b hb).1).resolve_right (hgap b hb).2
    have hcolumn : x.column = ((lastLine t).length : Int) + x.gap.length + 1 := by
      rw [hcol, ht.left.expandedWidth_lastLine hgap.lineFeed_notMem]
      rfl
    have hbehind : (((lastLine (t ++ x.gap ++ x.text)).length : Nat) : Int) + 1 = x.column + x.width := by
      rw [lastLine_append hlf, lastLine_append hgap.lineFeed_notMem, hcolumn, List.length_append, List.length_append, Lexeme.width]
      omega
    have hname : i < n := hnames ⟨i, x.flat⟩ (by simp)
    have hword : Laid n ((lastLine t).length + 1) (⟨i, x.flat⟩ :: es') (x.gap ++ (x.text ++ u)) := by
      have hlaid := Laid.word (n := n) (e := ⟨i, x.flat⟩) hkind hblanks (ht.right.notMem (by decide) (by decide))
        (fun hle => absurd hname (Nat.not_lt.2 hle)) (show ((lastLine t).length : Int) + 1 ≤ x.column by omega) (hbehind ▸ hrest)
      have hgaplen : x.column - (((lastLine t).length : Int) + 1) = x.gap.length := by omega
      have hfilled : copies (x.column - (((lastLine t).length : Int) + 1)) (.char ' ') = x.gap := by
        rw [hgaplen, ← eq_copies hblanks]
      rw [readText, if_pos hname] at hlaid
      exact hfilled ▸ hlaid
    simpa using ih ht.left.left hread (fun e he => hnames e (List.mem_append_left _ he)) hword
  | @newline t xs x k _ hgap hkind hbreaks ih =>
    obtain ⟨es, i, rfl, hread⟩ := exists_eq_concat hes
    have hsymbols : x.flat.symbols = List.replicate (k + 1) lineFeed := by
      rw [Lexeme.symbols_of_newline (x := x.flat) hkind, show x.flat.breaks = x.breaks from rfl, hbreaks]
      rfl
    rw [List.replicate_succ', ← List.append_assoc, lastLine_append_lineFeed] at hrest
    have hbreak : Laid n ((lastLine t).length + 1) (⟨i, x.flat⟩ :: es') (x.gap ++ (List.replicate (k + 1) lineFeed ++ u)) := by
      rw [← hsymbols]
      exact .lineBreak (e := ⟨i, x.flat⟩) hkind (hnames _ (by simp)) hrest
    simpa using ih ht.left.left hread (fun e he => hnames e (List.mem_append_left _ he)) hbreak

end CodeGroom
