import CodeGroom.Proofs.Alignment.Rows
import CodeGroom.Proofs.Strand.Rows

/-!
# Moving rows to a column

An alignment moves each of its rows, and the rest of its line, so far that the rows share a column. When no row is beyond that
column and rows on one line are the same, lexemes are only pushed to the right: the lexemes of a line come no closer to each
other, line breaks stay where they are, and so do lines without a row.
-/

namespace CodeGroom

/-- Rows that are moved to a column: their first symbols, or their ends. -/
structure Alignment where
  rows : List (Option Nat)
  right : Bool
  target : Int
deriving DecidableEq, Repr

/-- The alignment that an event reports. -/
def Event.alignment? : Event → Option Alignment
  | .rowsAligned rows target => some ⟨rows, false, target⟩
  | .rowsAlignedRight rows target => some ⟨rows, true, target⟩
  | _ => none

namespace Strand

/-- The column of lexeme `i`. -/
def columnAt (s : Strand) (i : Nat) : Int := (s.lexeme (some i)).column

/-- The second strand is the first one with lexemes at other columns. -/
structure Recolumned (s t : Strand) : Prop where
  size_eq : t.size = s.size
  first_eq : t.first = s.first
  last_eq : t.last = s.last
  language_eq : t.language = s.language
  nextOf_eq : ∀ i, t.nextOf i = s.nextOf i
  prevOf_eq : ∀ i, t.prevOf i = s.prevOf i
  lexeme_eq : ∀ i, t.lexeme (some i) = { s.lexeme (some i) with column := t.columnAt i }

variable {s t u : Strand} {i j l : Nat} {is : List Nat} {f : Lexeme → Lexeme}

namespace Recolumned

/-- A strand is a recolumned one of itself. -/
theorem refl (s : Strand) : Recolumned s s := ⟨rfl, rfl, rfl, rfl, fun _ => rfl, fun _ => rfl, fun _ => rfl⟩

/-- New columns may be changed again. -/
theorem trans (h : Recolumned s t) (h' : Recolumned t u) : Recolumned s u where
  size_eq := h'.size_eq.trans h.size_eq
  first_eq := h'.first_eq.trans h.first_eq
  last_eq := h'.last_eq.trans h.last_eq
  language_eq := h'.language_eq.trans h.language_eq
  nextOf_eq i := (h'.nextOf_eq i).trans (h.nextOf_eq i)
  prevOf_eq i := (h'.prevOf_eq i).trans (h.prevOf_eq i)
  lexeme_eq i := by rw [h'.lexeme_eq, h.lexeme_eq]

/-- A change of one column changes columns only. -/
theorem modify (hf : ∀ x, f x = { x with column := (f x).column }) (s : Strand) (i : Nat) : Recolumned s (s.modify i f) where
  size_eq := size_modify
  first_eq := rfl
  last_eq := rfl
  language_eq := rfl
  nextOf_eq _ := nextOf_modify
  prevOf_eq _ := prevOf_modify
  lexeme_eq j := by
    by_cases hj : j = i
    · subst hj
      by_cases hlt : j < s.size
      · rw [columnAt, lexeme_modify_self hlt]
        exact hf _
      · have hnone : s.cells[j]? = none := Array.getElem?_eq_none (Nat.not_lt.1 hlt)
        simp [columnAt, lexeme, Strand.modify, Array.getElem?_modify, hnone]
    · rw [columnAt, lexeme_modify_of_ne hj]

/-- And so do changes of several columns. -/
theorem modifyAll (hf : ∀ x, f x = { x with column := (f x).column }) (is : List Nat) (s : Strand) :
    Recolumned s (s.modifyAll is f) := by
  induction is generalizing s with
  | nil => exact refl s
  | cons i is ih => exact (modify hf s i).trans (ih _)

/-- A move to a column changes columns only. -/
theorem alignTo (o : Option Nat) (column : Int) (s : Strand) : Recolumned s (s.alignTo o column) := by
  unfold Strand.alignTo
  dsimp only
  split_ifs
  · exact refl s
  · exact modifyAll (fun _ => rfl) _ s

/-- What changes columns only does so any number of times. -/
theorem foldl {α : Type} {f : Strand → α → Strand} (hf : ∀ s x, Recolumned s (f s x)) (xs : List α) (s : Strand) :
    Recolumned s (xs.foldl f s) := by
  induction xs generalizing s with
  | nil => exact refl s
  | cons x xs ih => exact (hf s x).trans (ih _)

variable (h : Recolumned s t)

include h

/-! Whatever does not look at columns is the same. -/

theorem nextOf_eq' : t.nextOf = s.nextOf := funext h.nextOf_eq

theorem prevOf_eq' : t.prevOf = s.prevOf := funext h.prevOf_eq

/-- Kinds stay. -/
theorem kind_eq (o : Option Nat) : (t.lexeme o).kind = (s.lexeme o).kind := by
  cases o with
  | none => rfl
  | some i => rw [h.lexeme_eq]

/-- Depths stay. -/
theorem depth_eq (o : Option Nat) : (t.lexeme o).depth = (s.lexeme o).depth := by
  cases o with
  | none => rfl
  | some i => rw [h.lexeme_eq]

/-- Texts stay. -/
theorem text_eq (o : Option Nat) : (t.lexeme o).text = (s.lexeme o).text := by
  cases o with
  | none => rfl
  | some i => rw [h.lexeme_eq]

/-- Columns apart, lexemes stay. -/
theorem bare_eq (i : Nat) : (t.lexeme (some i)).bare = (s.lexeme (some i)).bare := by
  rw [h.lexeme_eq]
  rfl

/-- Line breaks stay where they are. -/
theorem isNewline_eq : t.isNewline = s.isNewline := by
  funext i
  rw [isNewline, isNewline, Lexeme.isNewline, Lexeme.isNewline, h.kind_eq]

/-- The order stays. -/
theorem order_eq : t.order = s.order := by
  rw [order, order, h.nextOf_eq', h.size_eq, h.first_eq]

/-- What is behind a lexeme stays. -/
theorem after_eq (i : Nat) : t.after i = s.after i := by
  rw [after, after, h.nextOf_eq', h.size_eq]

/-- What is in front of a lexeme stays. -/
theorem before_eq (i : Nat) : t.before i = s.before i := by
  rw [before, before, h.prevOf_eq', h.size_eq]

/-- Places stay. -/
theorem placeOf_eq (i : Nat) : t.placeOf i = s.placeOf i := by rw [placeOf, placeOf, h.before_eq]

/-- Lines stay. -/
theorem lineOf_eq (i : Nat) : t.lineOf i = s.lineOf i := by rw [lineOf, lineOf, h.before_eq, h.isNewline_eq]

/-- The way back over qualifiers stays. -/
theorem beforeQualifiers_eq : ∀ path, t.beforeQualifiers path = s.beforeQualifiers path
  | [] => rfl
  | [p] => by simp only [beforeQualifiers, h.kind_eq]
  | p :: q :: rest => by simp only [beforeQualifiers, h.kind_eq, beforeQualifiers_eq rest]

/-- The left edge of a row stays. -/
theorem leftEdge_eq (o : Option Nat) : t.leftEdge o = s.leftEdge o := by
  have hpath : (o.bind fun i => t.beforeQualifiers (t.before i)) = o.bind fun i => s.beforeQualifiers (s.before i) := by
    simp only [h.before_eq, h.beforeQualifiers_eq]
  rw [leftEdge, leftEdge, hpath]
  cases o.bind fun i => s.beforeQualifiers (s.before i) with
  | none => rfl
  | some p =>
    have hnewline : (t.lexeme (some p)).isNewline = (s.lexeme (some p)).isNewline := congrFun h.isNewline_eq p
    dsimp only
    rw [hnewline, h.nextOf_eq]

theorem argumentsOn_eq (depth : Int) (fresh : Bool) (path : List Nat) :
    t.argumentsOn depth fresh path = s.argumentsOn depth fresh path := by
  have hstops : ∀ i, stopsArguments depth (t.lexeme (some i)) = stopsArguments depth (s.lexeme (some i)) := fun i => by
    simp only [stopsArguments, Lexeme.isNewline, h.kind_eq, h.depth_eq]
  induction path generalizing fresh with
  | nil => cases fresh <;> rfl
  | cons i rest ih => simp only [argumentsOn, hstops, h.depth_eq, h.kind_eq, ih]

/-- Arguments start where they did. -/
theorem argumentStarts_eq (o : Option Nat) : t.argumentStarts o = s.argumentStarts o := by
  have hahead : t.ahead .everything o = s.ahead .everything o := by
    cases o with
    | none => rfl
    | some i => simp only [ahead, restrict, h.after_eq]
  simp only [argumentStarts, nextOfKind, hahead, h.kind_eq, h.depth_eq, h.after_eq, h.argumentsOn_eq]

/-- A well-linked strand stays one. -/
theorem wellLinked (hs : s.WellLinked) : t.WellLinked where
  nodup := by
    rw [h.order_eq]
    exact hs.nodup
  mem_iff i := by
    rw [h.order_eq, h.size_eq]
    exact Linked.mem_iff hs i
  first_eq := by
    rw [h.order_eq, h.first_eq]
    exact hs.first_eq
  last_eq := by
    rw [h.order_eq, h.last_eq]
    exact hs.last_eq
  nextOf_eq p i q hsplit := by
    rw [h.nextOf_eq]
    exact hs.nextOf_eq p i q (h.order_eq.symm.trans hsplit)
  prevOf_eq p i q hsplit := by
    rw [h.prevOf_eq]
    exact hs.prevOf_eq p i q (h.order_eq.symm.trans hsplit)

end Recolumned

/-! ## Columns behind a move -/

/-- A change of other lexemes leaves a lexeme. -/
theorem lexeme_modifyAll_of_notMem (hj : j ∉ is) : (s.modifyAll is f).lexeme (some j) = s.lexeme (some j) := by
  induction is generalizing s with
  | nil => rfl
  | cons i is ih =>
    rw [List.mem_cons, not_or] at hj
    exact (ih hj.2).trans (lexeme_modify_of_ne hj.1)

/-- Moving a lexeme to a column moves the rest of its line by as much. -/
theorem columnAt_alignTo (hs : s.WellLinked) (hi : i ∈ s.order) (column : Int) (j : Nat) :
    (s.alignTo (some i) column).columnAt j =
      s.columnAt j + if j ∈ s.restOfLine (some i) then column - s.columnAt i else 0 := by
  unfold Strand.alignTo
  dsimp only
  rw [← columnAt]
  by_cases hzero : column - s.columnAt i = 0
  · rw [if_pos hzero, hzero, ite_self, Int.add_zero]
  · rw [if_neg hzero]
    by_cases hmem : j ∈ s.restOfLine (some i)
    · have hj : j < s.size := hs.mem_iff.1 ((hs.mem_restOfLine_iff hi).1 hmem).1
      rw [if_pos hmem, columnAt, lexeme_modifyAll (hs.nodup_restOfLine hi) hj, if_pos hmem]
      rfl
    · rw [if_neg hmem, columnAt, lexeme_modifyAll_of_notMem hmem, Int.add_zero]
      rfl

/-- A lexeme of a line, apart from its line break. -/
def OnLine (s : Strand) (i : Nat) : Prop := i ∈ s.order ∧ s.isNewline i = false

/-- What is on a line stays on one. -/
theorem Recolumned.onLine_iff (h : Recolumned s t) : t.OnLine i ↔ s.OnLine i := by
  rw [OnLine, OnLine, h.order_eq, h.isNewline_eq]

/-- Lexemes are only pushed to the right, and only on the lines of some rows: on a line the distances of neighbours do not
shrink, and line breaks stay where they are. -/
structure Pushed (rows : Nat → Prop) (s t : Strand) : Prop where
  recolumned : Recolumned s t
  column_le : ∀ i, s.columnAt i ≤ t.columnAt i
  gap_le : ∀ i j, s.nextOf i = some j → s.isNewline i = false → s.isNewline j = false →
    s.columnAt j - s.columnAt i ≤ t.columnAt j - t.columnAt i
  newline_eq : ∀ i, s.isNewline i = true → t.columnAt i = s.columnAt i
  elsewhere : ∀ j, (∀ i, rows i → s.lineOf i ≠ s.lineOf j) → t.columnAt j = s.columnAt j

namespace Pushed

variable {rows rows' : Nat → Prop}

theorem refl (rows : Nat → Prop) (s : Strand) : Pushed rows s s :=
  ⟨.refl s, fun _ => Int.le_refl _, fun _ _ _ _ _ => Int.le_refl _, fun _ _ => rfl, fun _ _ => rfl⟩

/-- What is pushed may be pushed again. -/
theorem trans (h : Pushed rows s t) (h' : Pushed rows t u) : Pushed rows s u where
  recolumned := h.recolumned.trans h'.recolumned
  column_le i := Int.le_trans (h.column_le i) (h'.column_le i)
  gap_le i j hnext hi hj := by
    refine Int.le_trans (h.gap_le i j hnext hi hj) (h'.gap_le i j ?_ ?_ ?_)
    · rw [h.recolumned.nextOf_eq, hnext]
    · rw [h.recolumned.isNewline_eq, hi]
    · rw [h.recolumned.isNewline_eq, hj]
  newline_eq i hi := by rw [h'.newline_eq i (by rw [h.recolumned.isNewline_eq, hi]), h.newline_eq i hi]
  elsewhere j hj := by
    rw [h'.elsewhere j fun i hi => ?_, h.elsewhere j hj]
    rw [h.recolumned.lineOf_eq, h.recolumned.lineOf_eq]
    exact hj i hi

/-- What is pushed for some rows is pushed for more of them. -/
theorem mono (h : Pushed rows s t) (hrows : ∀ i, rows i → rows' i) : Pushed rows' s t :=
  ⟨h.recolumned, h.column_le, h.gap_le, h.newline_eq, fun j hj => h.elsewhere j fun i hi => hj i (hrows i hi)⟩

/-- Moving a lexeme to the right pushes the rest of its line. -/
theorem alignTo (hs : s.WellLinked) (hi : s.OnLine i) {column : Int} (hcolumn : s.columnAt i ≤ column) :
    Pushed (· = i) s (s.alignTo (some i) column) where
  recolumned := .alignTo _ _ s
  column_le j := by
    rw [columnAt_alignTo hs hi.1]
    split_ifs <;> omega
  gap_le j k hnext hj hk := by
    rw [columnAt_alignTo hs hi.1, columnAt_alignTo hs hi.1]
    by_cases hjmem : j ∈ s.restOfLine (some i)
    · -- Where a lexeme is moved, so is the next one on its line.
      have hjrest := (hs.mem_restOfLine_iff hi.1).1 hjmem
      obtain ⟨hkmem, hplace⟩ := hs.placeOf_next hjrest.1 hnext
      have hline := hs.lineOf_next hjrest.1 hnext hj
      have hkrest : k ∈ s.restOfLine (some i) :=
        (hs.mem_restOfLine_iff hi.1).2 ⟨hkmem, hk, hline.trans hjrest.2.2.1, by omega⟩
      rw [if_pos hjmem, if_pos hkrest]
      omega
    · rw [if_neg hjmem]
      split_ifs <;> omega
  newline_eq j hj := by
    have hnot : j ∉ s.restOfLine (some i) := fun hmem => by
      rw [((hs.mem_restOfLine_iff hi.1).1 hmem).2.1] at hj
      cases hj
    rw [columnAt_alignTo hs hi.1, if_neg hnot, Int.add_zero]
  elsewhere j hj := by
    have hnot : j ∉ s.restOfLine (some i) := fun hmem =>
      hj i rfl ((hs.mem_restOfLine_iff hi.1).1 hmem).2.2.1.symm
    rw [columnAt_alignTo hs hi.1, if_neg hnot, Int.add_zero]

end Pushed

end Strand

namespace Alignment

open Strand

variable {m m' : Alignment} {s t : Strand} {i j : Nat} {is : List (Option Nat)}

/-- The column of a row that is to be the target: that of its first symbol, or the one behind it. -/
def edge (m : Alignment) (s : Strand) (o : Option Nat) : Int :=
  if m.right then ColumnGroup.endColumn s o else (s.lexeme o).column

/-- Moves a row so that its edge is the target. -/
def move (m : Alignment) (s : Strand) (o : Option Nat) : Strand := s.alignTo o ((s.lexeme o).column + (m.target - m.edge s o))

/-- Moves all rows. -/
def place (m : Alignment) (s : Strand) : Strand := m.rows.foldl m.move s

/-- No row is beyond the target. -/
def Reaches (m : Alignment) (s : Strand) : Prop := ∀ o ∈ m.rows, m.edge s o ≤ m.target

/-- The rows share a column. -/
def Shared (m : Alignment) (s : Strand) : Prop := ∃ column, ∀ o ∈ m.rows, m.edge s o = column

/-- Moving a row changes columns only. -/
theorem recolumned_move (m : Alignment) (s : Strand) (o : Option Nat) : Recolumned s (m.move s o) := .alignTo _ _ s

/-- Placing all rows changes columns only. -/
theorem recolumned_place (m : Alignment) (s : Strand) : Recolumned s (m.place s) := Recolumned.foldl m.recolumned_move _ s

/-- The edge of a row moves along with the row, and with the next lexeme of its line. -/
theorem edge_of_shift (m : Alignment) (h : Recolumned s t) {n : Int} (hi : t.columnAt i = s.columnAt i + n)
    (hnext : ∀ l, s.nextOf i = some l → s.isNewline l = false → t.columnAt l = s.columnAt l + n) :
    m.edge t (some i) = m.edge s (some i) + n := by
  have hcolumn : (t.lexeme (some i)).column = (s.lexeme (some i)).column + n := hi
  have hwidth : ∀ o, (t.lexeme o).width = (s.lexeme o).width := fun o => by rw [Lexeme.width, h.text_eq, Lexeme.width]
  unfold edge
  split_ifs with hright
  · unfold ColumnGroup.endColumn
    simp only [Option.bind_some, h.nextOf_eq, h.kind_eq, hwidth]
    split_ifs with hliteral
    · -- A literal behind a sign is no line break, so it is on the line of its sign.
      cases hl : s.nextOf i with
      | none =>
        rw [hl] at hliteral
        rcases hliteral.2 with hk | hk <;> cases hk
      | some l =>
        have hnewline : s.isNewline l = false := by
          rw [hl] at hliteral
          rcases hliteral.2 with hk | hk
          · exact isNewline_of_kind hk (by decide)
          · exact isNewline_of_kind hk (by decide)
        have hshift : (t.lexeme (some l)).column = (s.lexeme (some l)).column + n := hnext l hl hnewline
        rw [hshift]
        omega
    · rw [hcolumn]
      omega
  · exact hcolumn

/-- Moving one row moves the edges of the lexemes behind it on its line, and no edge of a lexeme far enough in front. -/
theorem edge_move (m m' : Alignment) (hs : s.WellLinked) (hi : i ∈ s.order) (hj : s.OnLine j)
    (hfar : s.lineOf i = s.lineOf j → s.placeOf i ≤ s.placeOf j ∨ s.placeOf j + 1 < s.placeOf i) :
    m.edge (m'.move s (some i)) (some j) =
      m.edge s (some j) + if j ∈ s.restOfLine (some i) then m'.target - m'.edge s (some i) else 0 := by
  have hcolumn : ∀ k, (m'.move s (some i)).columnAt k =
      s.columnAt k + if k ∈ s.restOfLine (some i) then m'.target - m'.edge s (some i) else 0 := fun k => by
    rw [move, columnAt_alignTo hs hi, columnAt, columnAt, Int.add_comm (s.lexeme (some i)).column, Int.add_sub_cancel]
  refine edge_of_shift m (m'.recolumned_move s _) (hcolumn j) fun l hl hnewline => ?_
  rw [hcolumn]
  obtain ⟨hlmem, hplace⟩ := hs.placeOf_next hj.1 hl
  have hline := hs.lineOf_next hj.1 hl hj.2
  have hsame : l ∈ s.restOfLine (some i) ↔ j ∈ s.restOfLine (some i) := by
    rw [hs.mem_restOfLine_iff hi, hs.mem_restOfLine_iff hi, hline, hplace]
    refine ⟨fun ⟨_, _, hl, hle⟩ => ⟨hj.1, hj.2, hl, ?_⟩, fun ⟨_, _, hl, hle⟩ => ⟨hlmem, hnewline, hl, by omega⟩⟩
    rcases hfar hl.symm with hbehind | hfront <;> omega
  simp only [hsame]

/-- A move of other lines, or far enough behind, leaves the edge of a row. -/
theorem edge_foldl_move (m m' : Alignment) (hs : s.WellLinked) (hj : s.OnLine j) (his : ∀ o ∈ is, ∃ i ∈ s.order, o = some i)
    (hfar : ∀ i, some i ∈ is → s.lineOf i = s.lineOf j → s.placeOf j + 1 < s.placeOf i) :
    m.edge (is.foldl m'.move s) (some j) = m.edge s (some j) := by
  induction is generalizing s with
  | nil => rfl
  | cons o is ih =>
    obtain ⟨i, hi, rfl⟩ := his o List.mem_cons_self
    have hfar' := hfar i List.mem_cons_self
    have hmove := m'.recolumned_move s (some i)
    rw [List.foldl_cons, ih (hmove.wellLinked hs) (hmove.onLine_iff.2 hj)]
    · have hnot : j ∉ s.restOfLine (some i) := fun hmem => by
        obtain ⟨-, -, hline, hle⟩ := (hs.mem_restOfLine_iff hi).1 hmem
        have hlt := hfar' hline.symm
        omega
      rw [edge_move m m' hs hi hj fun hline => .inr (hfar' hline), if_neg hnot, Int.add_zero]
    · intro o ho
      rw [hmove.order_eq]
      exact his o (List.mem_cons_of_mem _ ho)
    · intro k hk hline
      rw [hmove.lineOf_eq, hmove.lineOf_eq] at hline
      rw [hmove.placeOf_eq, hmove.placeOf_eq]
      exact hfar k (List.mem_cons_of_mem _ hk) hline

/-- Rows of an alignment that do not disturb each other: they stand on lines, and two of them on one line are the same. -/
structure Apart (s : Strand) (is : List (Option Nat)) : Prop where
  onLine : ∀ o ∈ is, ∃ i, o = some i ∧ s.OnLine i
  eq_of_lineOf_eq : ∀ i j, some i ∈ is → some j ∈ is → s.lineOf i = s.lineOf j → i = j

theorem Apart.tail {o : Option Nat} (h : Apart s (o :: is)) : Apart s is :=
  ⟨fun o ho => h.onLine o (List.mem_cons_of_mem _ ho),
    fun i j hi hj => h.eq_of_lineOf_eq i j (List.mem_cons_of_mem _ hi) (List.mem_cons_of_mem _ hj)⟩

/-- Rows on different lines stay so. -/
theorem Apart.recolumned (h : Apart s is) (hst : Recolumned s t) : Apart t is := by
  refine ⟨fun o ho => ?_, fun i j hi hj hline => ?_⟩
  · obtain ⟨i, rfl, hi⟩ := h.onLine o ho
    exact ⟨i, rfl, hst.onLine_iff.2 hi⟩
  · rw [hst.lineOf_eq, hst.lineOf_eq] at hline
    exact h.eq_of_lineOf_eq i j hi hj hline

/-- Moving rows that are apart and not beyond the target pushes their lines, and each edge comes to the target. -/
theorem pushed_foldl_move (m : Alignment) (hs : s.WellLinked) (his : Apart s is) (hreach : ∀ o ∈ is, m.edge s o ≤ m.target) :
    Pushed (some · ∈ is) s (is.foldl m.move s) ∧ ∀ o ∈ is, m.edge (is.foldl m.move s) o = m.target := by
  induction is generalizing s with
  | nil => exact ⟨.refl _ s, fun _ ho => by cases ho⟩
  | cons o is ih =>
    obtain ⟨i, rfl, hi⟩ := his.onLine o List.mem_cons_self
    have hmove := m.recolumned_move s (some i)
    -- Behind the first move its row is at the target, and rows of other lines are where they were.
    have hself : m.edge (m.move s (some i)) (some i) = m.target := by
      have hmem : i ∈ s.restOfLine (some i) := (hs.mem_restOfLine_iff hi.1).2 ⟨hi.1, hi.2, rfl, Nat.le_refl _⟩
      rw [edge_move m m hs hi.1 hi fun _ => .inl (Nat.le_refl _), if_pos hmem]
      omega
    have hother : ∀ j, some j ∈ is → j ≠ i → m.edge (m.move s (some i)) (some j) = m.edge s (some j) := by
      intro j hj hne
      obtain ⟨j', hj', hjline⟩ := his.onLine (some j) (List.mem_cons_of_mem _ hj)
      obtain rfl := Option.some.inj hj'
      have hline : s.lineOf i ≠ s.lineOf j := fun heq =>
        hne (his.eq_of_lineOf_eq i j List.mem_cons_self (List.mem_cons_of_mem _ hj) heq).symm
      have hnot : j ∉ s.restOfLine (some i) := fun hmem => hline ((hs.mem_restOfLine_iff hi.1).1 hmem).2.2.1.symm
      rw [edge_move m m hs hi.1 hjline fun heq => absurd heq hline, if_neg hnot, Int.add_zero]
    have hreach' : ∀ o ∈ is, m.edge (m.move s (some i)) o ≤ m.target := by
      intro o ho
      obtain ⟨j, rfl, -⟩ := his.onLine o (List.mem_cons_of_mem _ ho)
      by_cases hji : j = i
      · rw [hji, hself]
      · rw [hother j ho hji]
        exact hreach _ (List.mem_cons_of_mem _ ho)
    obtain ⟨hpushed, hedges⟩ := ih (hmove.wellLinked hs) (his.tail.recolumned hmove) hreach'
    have hfirst : Pushed (· = i) s (m.move s (some i)) := by
      refine Pushed.alignTo hs hi ?_
      have hle := hreach (some i) List.mem_cons_self
      rw [columnAt]
      omega
    refine ⟨?_, fun o ho => ?_⟩
    · exact (hfirst.mono fun k hk => hk ▸ List.mem_cons_self).trans (hpushed.mono fun k hk => List.mem_cons_of_mem _ hk)
    · rcases List.mem_cons.1 ho with rfl | ho
      · by_cases hmem : some i ∈ is
        · exact hedges _ hmem
        · rw [List.foldl_cons, edge_foldl_move m m (hmove.wellLinked hs) (hmove.onLine_iff.2 hi), hself]
          · intro o ho
            obtain ⟨j, rfl, hj⟩ := (his.tail.recolumned hmove).onLine o ho
            exact ⟨j, hj.1, rfl⟩
          · intro j hj hline
            rw [hmove.lineOf_eq, hmove.lineOf_eq] at hline
            have heq := his.eq_of_lineOf_eq j i (List.mem_cons_of_mem _ hj) List.mem_cons_self hline
            exact absurd (heq ▸ hj) hmem
      · exact hedges o ho

/-- Placing rows on different lines pushes them, where none has to go back. -/
theorem pushed_place (m : Alignment) (hs : s.WellLinked) (hapart : Apart s m.rows) (hreach : m.Reaches s) :
    Pushed (some · ∈ m.rows) s (m.place s) := (pushed_foldl_move m hs hapart hreach).1

/-- Behind an alignment its rows share a column. -/
theorem edge_place (m : Alignment) (hs : s.WellLinked) (hapart : Apart s m.rows) (hreach : m.Reaches s) :
    ∀ o ∈ m.rows, m.edge (m.place s) o = m.target := (pushed_foldl_move m hs hapart hreach).2

end Alignment

end CodeGroom
