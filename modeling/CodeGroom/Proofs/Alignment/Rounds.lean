import CodeGroom.Proofs.Alignment.Moves
import Mathlib.Data.List.Perm.Subperm

/-!
# The rounds of a column group

Whatever a column group does, it reports, forgets rows or puts them into another order, and aligns at least two of its rows, none
of which is beyond the target. When it counts lines, each alignment comes right behind the report that the span is exceeded.
-/

namespace CodeGroom

/-- Whether the newest event reports that a span is exceeded. -/
def Trace.overdue : Trace → Bool
  | .spanExceeded _ _ :: _ => true
  | _ => false

/-- The event that reports an alignment. -/
def Alignment.event (m : Alignment) : Event := if m.right then .rowsAlignedRight m.rows m.target else .rowsAligned m.rows m.target

/-- The trace tells which rows were aligned. -/
theorem Alignment.alignment?_event (m : Alignment) : m.event.alignment? = some m := by
  obtain ⟨rows, right, target⟩ := m
  cases right <;> rfl

namespace ColumnGroup

/-- The lexemes of the rows that a column group has, pending or passed over. -/
def rows (g : ColumnGroup) : List (Option Nat) := (g.pending ++ g.passed).map (·.lexeme)

/-- A property of a strand being aligned and of the rows of a group that all kept to what a column group does: to report, to
forget rows or to reorder them, to align some of them. When `early`, only overdue rows are aligned. -/
structure Kept (early : Bool) (P : Draft → List (Option Nat) → Prop) : Prop where
  note : ∀ {d is} (e : Event), e.alignment? = none → P d is → P (d.note e) is
  forget : ∀ {d is is'}, is'.Subperm is → P d is → P d is'
  align : ∀ {d is rest m} {e : Event}, e.alignment? = some m → 2 ≤ m.rows.length → is.Perm (m.rows ++ rest) → m.Reaches d.strand →
    (early = true → d.trace.overdue = true) → P d is → P ⟨m.place d.strand, e :: d.trace⟩ rest

/-- Nothing is larger than the largest. -/
theorem le_largest {x : Int} {xs : List Int} (h : x ∈ xs) : x ≤ largest xs := by
  have hfold : ∀ (ys : List Int) (y : Int), y ≤ ys.foldl max y ∧ ∀ z ∈ ys, z ≤ ys.foldl max y := by
    intro ys
    induction ys with
    | nil => exact fun y => ⟨Int.le_refl y, fun _ hz => by cases hz⟩
    | cons y ys ih =>
      intro z
      obtain ⟨hfirst, hrest⟩ := ih (max z y)
      rw [List.foldl_cons]
      refine ⟨Int.le_trans (Int.le_max_left z y) hfirst, fun w hw => ?_⟩
      rcases List.mem_cons.1 hw with rfl | hw
      · exact Int.le_trans (Int.le_max_right z w) hfirst
      · exact hrest w hw
  cases xs with
  | nil => cases h
  | cons y ys =>
    rcases List.mem_cons.1 h with rfl | h
    · exact (hfold ys x).1
    · exact (hfold ys y).2 x h

/-- No tab stop that a column is moved to is left of it. -/
theorem le_nextTabStop {tabStop : Int} (h : 0 < tabStop) (column : Int) : column ≤ nextTabStop tabStop column := by
  unfold nextTabStop
  have hdiv := Int.mul_fdiv_add_fmod (column - 1 + tabStop - 1) tabStop
  have hlt := Int.fmod_lt_of_pos (column - 1 + tabStop - 1) h
  rw [Int.mul_comm] at hdiv
  omega

/-- No row starts beyond the column that all are moved to. -/
theorem le_targetColumn (tabStop : Int) (s : Strand) {is : List (Option Nat)} {o : Option Nat} (h : o ∈ is) :
    (s.lexeme o).column ≤ targetColumn tabStop s is := by
  have hle := le_largest (List.mem_map_of_mem (f := fun o => (s.lexeme o).column) h)
  unfold targetColumn
  dsimp only
  split_ifs with htab
  · exact Int.le_trans hle (le_nextTabStop htab _)
  · exact hle

variable {P : Draft → List (Option Nat) → Prop} {early : Bool} {d : Draft} {g : ColumnGroup}

/-- The rows passed over are among the rows. -/
theorem passed_subperm (g : ColumnGroup) : (g.passed.map (·.lexeme)).Subperm g.rows := by
  rw [rows, List.map_append]
  exact (List.sublist_append_right _ _).subperm

/-- The alignment of the pending rows in a strand: to the largest column that one of them ends in, or to the target column. -/
def alignment (g : ColumnGroup) (s : Strand) : Alignment :=
  let is := g.pending.map (·.lexeme)
  ⟨is, g.alignRight, if g.alignRight then largest (is.map (endColumn s)) else targetColumn g.tabStop s is⟩

/-- No row is beyond the column that it is moved to. -/
theorem reaches_alignment (g : ColumnGroup) (s : Strand) : (g.alignment s).Reaches s := by
  intro o ho
  unfold alignment Alignment.edge
  dsimp only
  cases g.alignRight with
  | true => exact le_largest (List.mem_map_of_mem ho)
  | false => exact le_targetColumn _ _ ho

/-- Applying aligns the pending rows, if there are at least two, which it reports. -/
theorem apply_eq (d : Draft) (g : ColumnGroup) : g.apply d =
    if g.pending.length < 2 then (d, g.closeBatch true)
    else (⟨(g.alignment d.strand).place d.strand, (g.alignment d.strand).event :: d.trace⟩, g.closeBatch true) := by
  have hends : ∀ (is : List (Option Nat)) (column : Int),
      (fun s o => alignEnd s column o) = (⟨is, true, column⟩ : Alignment).move := fun is column => by
    funext s o
    rw [alignEnd, Alignment.move, Alignment.edge, if_pos rfl, Int.add_sub_assoc]
  have hstarts : ∀ (is : List (Option Nat)) (column : Int),
      (fun s o => Strand.alignTo s o column) = (⟨is, false, column⟩ : Alignment).move := fun is column => by
    funext s o
    rw [Alignment.move, Alignment.edge, if_neg Bool.false_ne_true, Int.add_comm, Int.sub_add_cancel]
  unfold apply
  dsimp only
  by_cases hfew : g.pending.length < 2
  · rw [if_pos hfew, if_pos hfew]
  · rw [if_neg hfew, if_neg hfew]
    have hmode : (g.closeBatch true).alignRight = g.alignRight := rfl
    rw [hmode, alignment]
    cases g.alignRight with
    | true =>
      rw [if_pos rfl, hends (g.pending.map (·.lexeme))]
      rfl
    | false =>
      rw [if_neg Bool.false_ne_true, hstarts (g.pending.map (·.lexeme))]
      rfl

/-- Applying forgets a single row and aligns several. -/
theorem apply_keeps (hP : Kept early P) (hearly : early = true → d.trace.overdue = true) (h : P d g.rows) :
    P (g.apply d).1 (g.apply d).2.rows := by
  have hrows : g.rows = (g.alignment d.strand).rows ++ g.passed.map (·.lexeme) := by rw [rows, List.map_append]; rfl
  rw [apply_eq]
  split_ifs with hfew
  · exact hP.forget g.passed_subperm h
  · refine hP.align (g.alignment d.strand).alignment?_event ?_ (List.Perm.of_eq hrows) (g.reaches_alignment _) hearly h
    rw [alignment, List.length_map]
    omega

/-- Applying early reports that the span is exceeded and aligns then. -/
theorem applyEarly_keeps (hP : Kept early P) (h : P d g.rows) : P (g.applyEarly d).1 (g.applyEarly d).2.rows :=
  apply_keeps hP (fun _ => rfl) (hP.note _ rfl h)

/-- A row that is offered is passed over, which is reported, or taken in. -/
theorem addRow_cases (d : Draft) (g : ColumnGroup) (row : Row) :
    (∃ e : Event, e.alignment? = none ∧ g.addRow d row = (d.note e, { g with passed := g.passed ++ [row] })) ∨
      ∃ g', g.addRow d row = (d, g') ∧ g'.pending = g.pending ++ [row] ∧ g'.passed = g.passed := by
  unfold addRow
  dsimp only
  by_cases hfar : g.tooFar (d.strand.lexeme row.lexeme).column = true
  · rw [if_pos hfar]
    exact .inl ⟨_, rfl, rfl⟩
  · rw [if_neg hfar]
    exact .inr ⟨_, rfl, rfl, rfl⟩

/-- A row that is added is one of the rows. -/
theorem rows_addRow (d : Draft) (g : ColumnGroup) (row : Row) : (g.addRow d row).2.rows.Perm (g.rows ++ [row.lexeme]) := by
  rcases addRow_cases d g row with ⟨e, -, heq⟩ | ⟨g', heq, hpending, hpassed⟩
  · rw [heq]
    simp [rows]
  · have hmiddle : (g.pending ++ [row] ++ g.passed).Perm (g.pending ++ g.passed ++ [row]) := by
      rw [List.append_assoc, List.append_assoc]
      exact List.Perm.append_left _ List.perm_append_comm
    rw [heq, rows, hpending, hpassed]
    simpa [rows] using hmiddle.map (·.lexeme)

/-- A row that is offered is among the rows then. -/
theorem addRow_keeps (hP : Kept early P) (row : Row) (is : List (Option Nat))
    (h : P d (g.rows ++ row.lexeme :: is)) : P (g.addRow d row).1 ((g.addRow d row).2.rows ++ is) := by
  have hperm : ((g.addRow d row).2.rows ++ is).Perm (g.rows ++ row.lexeme :: is) := by
    have hrow := (rows_addRow d g row).append_right is
    rwa [List.append_assoc, List.singleton_append] at hrow
  refine hP.forget hperm.subperm ?_
  rcases addRow_cases d g row with ⟨e, he, heq⟩ | ⟨g', heq, -, -⟩
  · rw [heq]
    exact hP.note e he h
  · rw [heq]
    exact h

/-- Adding rows keeps what adding one keeps. -/
theorem addRows_keeps (hP : Kept early P) (rs : List Row) (h : P d (g.rows ++ rs.map (·.lexeme))) :
    P (addRows d g rs).1 (addRows d g rs).2.rows := by
  induction rs generalizing d g with
  | nil =>
    rw [List.map_nil, List.append_nil] at h
    exact h
  | cons row rs ih => exact ih (addRow_keeps hP row _ h)

/-- Taking rows again keeps it, however often that is done. -/
theorem retakeFor_keeps (hP : Kept early P) (n : Nat) (h : P d g.rows) : P (retakeFor n d g).1 (retakeFor n d g).2.rows := by
  induction n generalizing d g with
  | zero => exact h
  | succ n ih =>
    have hrows : P (addRows d g.takePassed g.passed).1 (addRows d g.takePassed g.passed).2.rows := by
      refine addRows_keeps hP g.passed ?_
      have htaken : g.takePassed.rows ++ g.passed.map (·.lexeme) = g.rows := by simp [takePassed, rows]
      rw [htaken]
      exact h
    unfold retakeFor
    dsimp only
    split_ifs
    · exact h
    · exact ih (applyEarly_keeps hP hrows)
    · exact hrows

/-- Counting lines aligns overdue rows only. -/
theorem newLines_keeps (hP : Kept early P) (count : Int) (h : P d g.rows) :
    P (g.newLines d count).1 (g.newLines d count).2.rows := by
  unfold newLines
  dsimp only
  split_ifs
  · exact h
  · exact retakeFor_keeps hP _ (applyEarly_keeps hP h)
  · exact h

/-- And so does finishing. -/
theorem finishFor_keeps (hP : Kept false P) (n : Nat) (h : P d g.rows) : P (finishFor n d g).1 (finishFor n d g).2.rows := by
  induction n generalizing d g with
  | zero => exact h
  | succ n ih =>
    unfold finishFor
    dsimp only
    split_ifs
    · exact h
    · exact ih (apply_keeps hP (fun hearly => by cases hearly) (retakeFor_keeps hP _ h))

/-- Finishing aligns whatever there is. -/
theorem finish_keeps (hP : Kept false P) (h : P d g.rows) : P (g.finish d).1 (g.finish d).2.rows :=
  finishFor_keeps hP _ (apply_keeps hP (fun hearly => by cases hearly) h)

/-! ## What a group keeps for later -/

/-- No row is pending behind an alignment. -/
theorem pending_apply (d : Draft) (g : ColumnGroup) : (g.apply d).2.pending = [] := by
  unfold apply
  dsimp only
  split_ifs <;> rfl

theorem passed_apply (d : Draft) (g : ColumnGroup) : (g.apply d).2.passed = g.passed := by
  unfold apply
  dsimp only
  split_ifs <;> rfl

/-- A row that is added may be passed over. -/
theorem length_passed_addRow (d : Draft) (g : ColumnGroup) (row : Row) :
    (g.addRow d row).2.passed.length ≤ g.passed.length + 1 := by
  rcases addRow_cases d g row with ⟨e, -, heq⟩ | ⟨g', heq, -, hpassed⟩
  · rw [heq, List.length_append, List.length_singleton]
  · rw [heq, hpassed]
    exact Nat.le_succ _

theorem length_passed_addRows (d : Draft) (g : ColumnGroup) (rs : List Row) :
    (addRows d g rs).2.passed.length ≤ g.passed.length + rs.length := by
  induction rs generalizing d g with
  | nil => exact Nat.le_refl _
  | cons row rs ih =>
    have hrow := length_passed_addRow d g row
    have hrest := ih (g.addRow d row).1 (g.addRow d row).2
    have hcons : addRows d g (row :: rs) = addRows (g.addRow d row).1 (g.addRow d row).2 rs := rfl
    rw [hcons, List.length_cons]
    omega

/-- An empty group takes in the first of some rows. -/
theorem length_passed_addRows_takePassed (d : Draft) {g : ColumnGroup} (hpending : g.pending = []) (hpassed : g.passed ≠ []) :
    (addRows d g.takePassed g.passed).2.passed.length < g.passed.length := by
  obtain ⟨row, rs, hrs⟩ := List.exists_cons_of_ne_nil hpassed
  have hcons : addRows d g.takePassed (row :: rs) = addRows (g.takePassed.addRow d row).1 (g.takePassed.addRow d row).2 rs := rfl
  have hfirst : (g.takePassed.addRow d row).2.passed = [] := by simp [addRow, takePassed, tooFar, hpending]
  have hrest := length_passed_addRows (g.takePassed.addRow d row).1 (g.takePassed.addRow d row).2 rs
  rw [hfirst, List.length_nil] at hrest
  rw [hrs, hcons, List.length_cons]
  omega

/-- No more rows are passed over when they are taken again. -/
theorem length_passed_retakeFor (n : Nat) (d : Draft) (g : ColumnGroup) :
    (retakeFor n d g).2.passed.length ≤ g.passed.length := by
  induction n generalizing d g with
  | zero => exact Nat.le_refl _
  | succ n ih =>
    have hrows : (addRows d g.takePassed g.passed).2.passed.length ≤ g.passed.length := by
      have hle := length_passed_addRows d g.takePassed g.passed
      rw [takePassed, List.length_nil, Nat.zero_add] at hle
      exact hle
    unfold retakeFor
    dsimp only
    split_ifs
    · exact Nat.le_refl _
    · refine Nat.le_trans (ih _ _) ?_
      rw [applyEarly, passed_apply]
      exact hrows
    · exact hrows

/-- Offering the rows passed over to an empty group takes in at least one. -/
theorem length_passed_retake (d : Draft) {g : ColumnGroup} (hpending : g.pending = []) (hpassed : g.passed ≠ []) :
    (retake d g).2.passed.length < g.passed.length := by
  obtain ⟨n, hn⟩ : ∃ n, g.passed.length = n + 1 := Nat.exists_eq_succ_of_ne_zero fun h => hpassed (List.eq_nil_of_length_eq_zero h)
  have hrows := length_passed_addRows_takePassed d hpending hpassed
  rw [retake, hn, retakeFor, if_neg hpassed]
  dsimp only
  split_ifs
  · have hrest := length_passed_retakeFor n ((addRows d g.takePassed g.passed).2.applyEarly
      (addRows d g.takePassed g.passed).1).1 ((addRows d g.takePassed g.passed).2.applyEarly
      (addRows d g.takePassed g.passed).1).2
    rw [applyEarly, passed_apply, ← applyEarly] at hrest
    exact Nat.lt_of_le_of_lt hrest (hn ▸ hrows)
  · exact hn ▸ hrows

/-- With rounds enough no row is left. -/
theorem rows_finishFor {n : Nat} (hpending : g.pending = []) (hn : g.passed.length ≤ n) : (finishFor n d g).2.rows = [] := by
  induction n generalizing d g with
  | zero =>
    have hpassed := List.eq_nil_of_length_eq_zero (Nat.le_zero.1 hn)
    simp [finishFor, rows, hpending, hpassed]
  | succ n ih =>
    unfold finishFor
    dsimp only
    split_ifs with hpassed
    · simp [rows, hpending, hpassed]
    · refine ih (pending_apply _ _) ?_
      rw [passed_apply]
      have hlt := length_passed_retake d hpending hpassed
      omega

/-- A group that has finished has no rows. -/
theorem rows_finish (d : Draft) (g : ColumnGroup) : (g.finish d).2.rows = [] :=
  rows_finishFor (pending_apply d g) (Nat.le_refl _)

end ColumnGroup

end CodeGroom
