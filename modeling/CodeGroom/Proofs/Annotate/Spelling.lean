import CodeGroom.Annotate.State
import CodeGroom.Text.CharClass
import Mathlib.Data.List.TakeWhile

/-!
# What lexemes spell

Lexemes spell a text: each one is its gap followed by its own symbols, and a line break is its gap followed by its line feeds. A
reader that has reached a place in the source has spelled the source up to the end of its last lexeme, and between that and the
place there is only white space, which the next lexeme will take as its gap.
-/

namespace CodeGroom

namespace Text

/-- White space within a line. -/
def IsGap (t : Text) : Prop := ∀ x ∈ t, x.isBlank = true ∧ x ≠ lineFeed

/-- What stands behind the last line feed of a text. -/
def lastLine (t : Text) : Text := (t.reverse.takeWhile (· ≠ lineFeed)).reverse

theorem IsGap.nil : IsGap [] := by
  simp [IsGap]

/-- Two gaps are a gap together. -/
theorem IsGap.append {t u : Text} (ht : IsGap t) (hu : IsGap u) : IsGap (t ++ u) := by
  intro x hx
  rcases List.mem_append.1 hx with hx | hx
  · exact ht x hx
  · exact hu x hx

/-- No gap holds a line feed. -/
theorem IsGap.lineFeed_notMem {t : Text} (h : IsGap t) : lineFeed ∉ t := fun hmem => (h _ hmem).2 rfl

/-- No line holds a line feed. -/
theorem lineFeed_notMem_lastLine (t : Text) : lineFeed ∉ lastLine t := by
  intro hmem
  have h := List.mem_takeWhile_imp (List.mem_reverse.1 hmem)
  simp at h

/-- A text without a line feed stays on the line on which it is written. -/
theorem lastLine_append {t u : Text} (hu : lineFeed ∉ u) : lastLine (t ++ u) = lastLine t ++ u := by
  have hall : ∀ x ∈ u.reverse, decide (x ≠ lineFeed) = true := by
    intro x hx
    rw [decide_eq_true_eq]
    rintro rfl
    exact hu (List.mem_reverse.1 hx)
  simp only [lastLine, List.reverse_append, List.takeWhile_append_of_pos hall, List.reverse_reverse]

/-- Behind a line feed a new line starts. -/
theorem lastLine_append_lineFeed (t : Text) : lastLine (t ++ [lineFeed]) = [] := by
  simp [lastLine]

/-- A text is what stands in front of its last line and that line. -/
theorem exists_append_lastLine (t : Text) : ∃ p, t = p ++ lastLine t ∧ (p = [] ∨ p.getLast? = some lineFeed) := by
  refine ⟨(t.reverse.dropWhile (· ≠ lineFeed)).reverse, ?_, ?_⟩
  · rw [lastLine, ← List.reverse_append, List.takeWhile_append_dropWhile, List.reverse_reverse]
  · cases h : t.reverse.dropWhile (· ≠ lineFeed) with
    | nil => exact .inl rfl
    | cons x l =>
      have hx := List.head?_dropWhile_not (· ≠ lineFeed) t.reverse
      rw [h] at hx
      have hlf : x = lineFeed := by simpa using hx
      exact .inr (by simp [hlf])

theorem slice_self (t : Text) (p : Nat) : t.slice p p = [] := by
  simp [slice]

/-- A text up to a place, taken further. -/
theorem take_append_slice (t : Text) {p q : Nat} (h : p ≤ q) : t.take p ++ t.slice p q = t.take q := by
  rw [slice, ← List.take_add, Nat.add_sub_cancel' h]

/-- Two neighbouring parts are one part. -/
theorem slice_append_slice (t : Text) {p q r : Nat} (hpq : p ≤ q) (hqr : q ≤ r) :
    t.slice p q ++ t.slice q r = t.slice p r := by
  have hd : t.drop q = (t.drop p).drop (q - p) := by rw [List.drop_drop, Nat.add_sub_cancel' hpq]
  rw [slice, slice, slice, hd, ← List.take_add]
  congr 1
  omega

/-- What stands at a place is the slice from there on. -/
theorem slice_of_prefix {t u : Text} {p : Nat} (h : u <+: t.drop p) : t.slice p (p + u.length) = u := by
  obtain ⟨v, hv⟩ := h
  rw [slice, ← hv, Nat.add_sub_cancel_left, List.take_left]

/-- What starts at a place follows what is in front of it. -/
theorem take_of_prefix {t u : Text} {p : Nat} (h : u <+: t.drop p) : t.take (p + u.length) = t.take p ++ u := by
  rw [← take_append_slice t (Nat.le_add_right p u.length), slice_of_prefix h]

/-- What stands at a place lies inside the text. -/
theorem add_length_le_of_prefix {t u : Text} {p : Nat} (hp : p ≤ t.length) (h : u <+: t.drop p) :
    p + u.length ≤ t.length := by
  have hle := h.length_le
  rw [List.length_drop] at hle
  omega

/-- What follows something that stands at a place stands behind it. -/
theorem prefix_drop_add {t u v : Text} {p : Nat} (h : u ++ v <+: t.drop p) : v <+: t.drop (p + u.length) := by
  obtain ⟨w, hw⟩ := h
  refine ⟨w, ?_⟩
  rw [← List.drop_drop, ← hw, List.append_assoc, List.drop_left]

end Text

/-- Lexemes, the newest first, spell a text that is read with a tab size: every lexeme is its gap and its symbols, at the column
behind its gap; a line break is its gap and its line feeds. -/
inductive Spells (tabSize : Int) : Text → List Lexeme → Prop where
  | nil : Spells tabSize [] []
  | word {t : Text} {xs : List Lexeme} {x : Lexeme} :
      Spells tabSize t xs → x.gap.IsGap → x.kind ≠ .newline → Text.lineFeed ∉ x.text →
      x.column = (Text.expandedWidth tabSize (Text.lastLine (t ++ x.gap)) : Int) + 1 →
      Spells tabSize (t ++ x.gap ++ x.text) (x :: xs)
  | newline {t : Text} {xs : List Lexeme} {x : Lexeme} {n : Nat} :
      Spells tabSize t xs → x.gap.IsGap → x.kind = .newline → x.breaks = ((n + 1 : Nat) : Int) →
      Spells tabSize (t ++ x.gap ++ List.replicate (n + 1) Text.lineFeed) (x :: xs)

namespace Annotator

/-- Giving the last code lexeme another kind changes nothing that is spelled. -/
theorem spells_changeLastCode {tabSize : Int} {kind : Kind} (hk : kind ≠ .newline) {t : Text} {xs : List Lexeme}
    (h : Spells tabSize t xs) : Spells tabSize t (changeLastCode (fun x => { x with kind }) xs) := by
  induction h with
  | nil => exact .nil
  | @word t xs x hxs hgap hkind htext hcol ih =>
    unfold changeLastCode
    split_ifs with hx
    · exact .word (x := { x with kind }) hxs hgap hk htext hcol
    · exact .word ih hgap hkind htext hcol
  | @newline t xs x n hxs hgap hkind hbreaks ih =>
    unfold changeLastCode
    rw [if_neg (by simp [hkind, Kind.isCode])]
    exact .newline ih hgap hkind hbreaks

variable {src : Source} {a : Annotator} {pos : Nat}

/-- The reader has reached a place: its lexemes spell the source up to the end of the last one, from there to the place there is
only a gap, and no directive has covered what lies behind the place. -/
structure Reached (src : Source) (pos : Nat) (a : Annotator) : Prop where
  spells : Spells src.tabSize (src.text.take a.covered) a.lexemes
  covered_le : a.covered ≤ pos
  le_length : pos ≤ src.text.length
  gap : (src.text.slice a.covered pos).IsGap
  resume_le : a.resume ≤ pos

/-- What is reached does not depend on the open brackets, the question marks and the branches. -/
theorem Reached.congr {b : Annotator} (h : Reached src pos a) (hl : b.lexemes = a.lexemes) (hc : b.covered = a.covered)
    (hr : b.resume = a.resume) : Reached src pos b :=
  ⟨by rw [hl, hc]; exact h.spells, by rw [hc]; exact h.covered_le, h.le_length, by rw [hc]; exact h.gap,
    by rw [hr]; exact h.resume_le⟩

/-- White space is passed over. -/
theorem Reached.skip {u : Text} (h : Reached src pos a) (hu : u <+: src.text.drop pos) (hgap : u.IsGap) :
    Reached src (pos + u.length) a := by
  refine ⟨h.spells, Nat.le_trans h.covered_le (Nat.le_add_right _ _), Text.add_length_le_of_prefix h.le_length hu, ?_,
    Nat.le_trans h.resume_le (Nat.le_add_right _ _)⟩
  rw [← Text.slice_append_slice _ h.covered_le (Nat.le_add_right pos u.length), Text.slice_of_prefix hu]
  exact h.gap.append hgap

/-- What is added to the lexemes. -/
theorem exists_lexemes_add (src : Source) (kind : Kind) (start : Nat) (text : Text) (owner : Kind) (directive : Bool)
    (a : Annotator) : ∃ x : Lexeme, (a.add src kind start text owner directive).lexemes = x :: a.lexemes ∧ x.kind = kind ∧
      x.text = text ∧ x.gap = src.text.slice a.covered start ∧ x.column = (src.columnAt start : Int) ∧
      x.breaks = if kind = .newline then 1 else 0 :=
  ⟨_, rfl, rfl, rfl, rfl, rfl, rfl⟩

/-- A lexeme covers the text up to its end. -/
theorem covered_add (src : Source) (kind : Kind) (start : Nat) (text : Text) (owner : Kind) (directive : Bool)
    (a : Annotator) : (a.add src kind start text owner directive).covered = start + text.length := rfl

/-- A lexeme read where the reader has come to takes the reader behind it. -/
theorem Reached.add {kind : Kind} {text : Text} {owner : Kind} {directive : Bool} (h : Reached src pos a)
    (hk : kind ≠ .newline) (ht : text <+: src.text.drop pos) (hlf : Text.lineFeed ∉ text) :
    Reached src (pos + text.length) (a.add src kind pos text owner directive) := by
  obtain ⟨x, hl, rfl, rfl, hgap, hcol, -⟩ := exists_lexemes_add src kind pos text owner directive a
  have htake := Text.take_append_slice src.text h.covered_le
  refine ⟨?_, Nat.le_refl _, Text.add_length_le_of_prefix h.le_length ht, ?_, Nat.le_trans h.resume_le (Nat.le_add_right _ _)⟩
  · rw [hl, covered_add, Text.take_of_prefix ht, ← htake, ← hgap]
    refine .word h.spells (hgap ▸ h.gap) hk hlf ?_
    rw [hcol, hgap, htake, Source.columnAt, Int.natCast_succ]
    rfl
  · rw [covered_add, Text.slice_self]
    exact .nil

/-- Reading a plain lexeme spells it. -/
theorem Reached.addPlain {kind : Kind} {text : Text} (h : Reached src pos a) (hk : kind ≠ .newline)
    (ht : text <+: src.text.drop pos) (hlf : Text.lineFeed ∉ text) :
    Reached src (pos + text.length) (a.addPlain src kind pos text) :=
  h.add hk ht hlf

/-- A line break read where the reader has come to takes the reader to the next line. -/
theorem Reached.addNewline (owner : Kind) (directive : Bool) (h : Reached src pos a)
    (ht : [Text.lineFeed] <+: src.text.drop pos) :
    Reached src (pos + 1) (a.add src .newline pos [Text.lineFeed] owner directive) := by
  obtain ⟨x, hl, hkind, -, hgap, -, hbreaks⟩ := exists_lexemes_add src .newline pos [Text.lineFeed] owner directive a
  have htake := Text.take_append_slice src.text h.covered_le
  refine ⟨?_, Nat.le_refl _, Text.add_length_le_of_prefix h.le_length ht, ?_, Nat.le_trans h.resume_le (Nat.le_add_right _ _)⟩
  · rw [hl, covered_add, Text.take_of_prefix ht, ← htake, ← hgap]
    exact .newline (n := 0) h.spells (hgap ▸ h.gap) hkind hbreaks
  · rw [covered_add, List.length_singleton, Text.slice_self]
    exact .nil

/-- A line feed is read as a line break of its own or lengthens the one that it directly follows. -/
theorem Reached.newline (h : Reached src pos a) (ht : [Text.lineFeed] <+: src.text.drop pos) :
    Reached src (pos + 1) (a.newline src pos) := by
  unfold Annotator.newline
  split
  · rename_i x xs hl
    split_ifs with hx
    · simp only [Bool.and_eq_true, decide_eq_true_eq] at hx
      obtain ⟨⟨hnl, -⟩, rfl⟩ := hx
      have hkind : x.kind = .newline := by simpa [Lexeme.isNewline] using hnl
      refine ⟨?_, Nat.le_refl _, Text.add_length_le_of_prefix h.le_length ht, ?_, Nat.le_trans h.resume_le (Nat.le_add_right _ _)⟩
      · have hspells := h.spells
        have hnext := Text.take_of_prefix ht
        simp only [List.length_singleton] at hnext
        rw [hl] at hspells
        generalize src.text.take a.covered = t at hspells hnext
        rw [hnext]
        cases hspells with
        | word _ _ hw => exact absurd hkind hw
        | @newline t xs x n hxs hgap hk hb =>
          have hmore := Spells.newline (x := { x with breaks := x.breaks + 1 }) (n := n + 1) hxs hgap hk (by simp [hb])
          simpa [List.replicate_succ' (n := n + 1)] using hmore
      · simp only [Text.slice_self]
        exact .nil
    · exact h.addNewline .nothing false ht
  · exact h.addNewline .nothing false ht

/-- Another kind is spelled the same. -/
theorem Reached.retype {kind : Kind} (h : Reached src pos a) (hk : kind ≠ .newline) : Reached src pos (a.retype kind) :=
  ⟨spells_changeLastCode hk h.spells, h.covered_le, h.le_length, h.gap, h.resume_le⟩

end Annotator

end CodeGroom
