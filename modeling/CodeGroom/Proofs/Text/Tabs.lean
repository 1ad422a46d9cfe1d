import CodeGroom.Text.Tabs
import Mathlib.Data.List.Basic

/-!
# The two ways to count columns

The reader measures the part of a line in front of a place, the writer follows the column from one text to the next. On a line
where no tab stands behind a carriage return both come to the same column.
-/

namespace CodeGroom.Text

/-- The carriage return, which restarts the tab grid of the reader but not that of the writer. -/
def carriageReturn : Symbol := .char '\r'

/-- Whether no tab stands behind a carriage return. -/
def tabsBeforeReturns (l : Text) : Bool := !(l.dropWhile (· ≠ carriageReturn)).contains tab

namespace TabsAux

/-- Behind a carriage return there is no tab. -/
theorem tab_notMem_of_return {l : Text} (h : tabsBeforeReturns (carriageReturn :: l)) : tab ∉ l := by
  simp only [tabsBeforeReturns, List.dropWhile_cons, ne_eq, not_true_eq_false, decide_false, Bool.false_eq_true,
    if_false, List.contains_eq_mem, Bool.not_eq_true', decide_eq_false_iff_not, List.mem_cons, not_or] at h
  exact h.2

/-- What holds of a line holds of what follows its first symbol. -/
theorem tabsBeforeReturns_tail {x : Symbol} {l : Text} (h : tabsBeforeReturns (x :: l)) : tabsBeforeReturns l := by
  by_cases hx : x = carriageReturn
  · subst hx
    have htab := tab_notMem_of_return h
    simp only [tabsBeforeReturns, List.contains_eq_mem, Bool.not_eq_true', decide_eq_false_iff_not]
    exact fun hmem => htab ((List.dropWhile_sublist _).subset hmem)
  · simpa [tabsBeforeReturns, List.dropWhile_cons, hx] using h

theorem tabsBeforeReturns_of_append {l t : Text} (h : tabsBeforeReturns (l ++ t)) : tabsBeforeReturns l := by
  simp only [tabsBeforeReturns, List.contains_eq_mem, Bool.not_eq_true', decide_eq_false_iff_not] at h ⊢
  rw [List.dropWhile_append] at h
  split_ifs at h with hl
  · rw [List.isEmpty_iff.1 hl]
    exact List.not_mem_nil
  · exact fun hmem => h (List.mem_append_left _ hmem)

/-- A tab moves reader and writer alike as long as the grid of the reader has not been restarted. -/
theorem expandStep_tab {tabSize : Int} (hpos : 0 < tabSize) (w : Nat) :
    ∃ gap, expandStep tabSize (w, w) tab = (w + gap, w + gap) ∧
      advanceStep tabSize ((w : Int) + 1) tab = ((w + gap : Nat) : Int) + 1 := by
  refine ⟨tabSize.toNat - w % tabSize.toNat, by simp [expandStep, hpos], ?_⟩
  obtain ⟨n, rfl⟩ := Int.eq_ofNat_of_zero_le (Int.le_of_lt hpos)
  have hn : 0 < n := Int.natCast_pos.1 hpos
  have hmod : ((w : Int) + 1 - 1).fmod (n : Int) = ((w % n : Nat) : Int) := by
    rw [Int.add_sub_cancel, Int.fmod_eq_emod_of_nonneg _ (Int.natCast_nonneg n), Int.natCast_emod]
  have hlt := Nat.mod_lt w hn
  simp only [advanceStep, if_true, hmod, Int.toNat_natCast]
  omega

/-- Any other symbol that does not end a line takes one place. -/
theorem expandStep_other (tabSize : Int) {x : Symbol} (hx : x ≠ tab) (hret : x ≠ carriageReturn) (hlf : x ≠ lineFeed)
    (g w : Nat) : expandStep tabSize (g, w) x = (g + 1, w + 1) := by
  have hone : x.isOneOf "\n\r" = false := by
    cases x with
    | byte b => rfl
    | char c =>
      have h1 : c ≠ '\n' := fun h => hlf (h ▸ rfl)
      have h2 : c ≠ '\r' := fun h => hret (h ▸ rfl)
      simp [Symbol.isOneOf, h1, h2]
  simp [expandStep, hx, hone]

theorem expandStep_return (tabSize : Int) (g w : Nat) : expandStep tabSize (g, w) carriageReturn = (0, w + 1) := rfl

theorem advanceStep_other (tabSize column : Int) {x : Symbol} (hx : x ≠ tab) :
    advanceStep tabSize column x = column + 1 := by
  simp [advanceStep, hx]

/-- The width of a part of a line agrees with the writer's column, from any width on: either the grid of the reader is that of
the writer still, or no tab follows. -/
theorem foldl_expandStep {tabSize : Int} (hpos : 0 < tabSize) {t : Text} (hlf : lineFeed ∉ t) (g w : Nat)
    (hgrid : g = w ∧ tabsBeforeReturns t ∨ tab ∉ t) :
    ((t.foldl (expandStep tabSize) (g, w)).2 : Int) + 1 = t.foldl (advanceStep tabSize) ((w : Int) + 1) := by
  induction t generalizing g w with
  | nil => rfl
  | cons x t ih =>
    simp only [List.mem_cons, not_or] at hlf
    obtain ⟨hx, hlf⟩ := hlf
    simp only [List.foldl_cons]
    by_cases htab : x = tab
    · subst htab
      obtain ⟨rfl, ht⟩ := hgrid.resolve_right (by simp)
      obtain ⟨gap, hexp, hadv⟩ := expandStep_tab hpos g
      rw [hexp, hadv]
      exact ih hlf _ _ (.inl ⟨rfl, tabsBeforeReturns_tail ht⟩)
    · rw [advanceStep_other tabSize _ htab, show (w : Int) + 1 + 1 = ((w + 1 : Nat) : Int) + 1 by omega]
      by_cases hret : x = carriageReturn
      · subst hret
        rw [expandStep_return]
        refine ih hlf _ _ (.inr ?_)
        rcases hgrid with ⟨-, ht⟩ | ht
        · exact tab_notMem_of_return ht
        · exact fun hmem => ht (List.mem_cons_of_mem _ hmem)
      · rw [expandStep_other tabSize htab hret (Ne.symm hx)]
        refine ih hlf _ _ ?_
        rcases hgrid with ⟨rfl, ht⟩ | ht
        · exact .inl ⟨rfl, tabsBeforeReturns_tail ht⟩
        · exact .inr fun hmem => ht (List.mem_cons_of_mem _ hmem)

/-- The width of a line is one less than the column that the writer has reached behind it. -/
theorem expandedWidth_eq {tabSize : Int} (hpos : 0 < tabSize) {l : Text} (hlf : lineFeed ∉ l)
    (hl : tabsBeforeReturns l) : (expandedWidth tabSize l : Int) + 1 = advance tabSize 1 l :=
  foldl_expandStep hpos hlf 0 0 (.inl ⟨rfl, hl⟩)

end TabsAux

open TabsAux

@[simp] theorem advance_nil (tabSize column : Int) : advance tabSize column [] = column := rfl

theorem advance_append (tabSize column : Int) (l t : Text) :
    advance tabSize column (l ++ t) = advance tabSize (advance tabSize column l) t := by
  simp [advance]

/-- The writer, starting where the reader says that a text starts, ends where the reader says that it ends. -/
theorem advance_expandedWidth {tabSize : Int} (hpos : 0 < tabSize) {l t : Text} (hlf : lineFeed ∉ l ++ t)
    (h : tabsBeforeReturns (l ++ t)) :
    advance tabSize ((expandedWidth tabSize l : Int) + 1) t = (expandedWidth tabSize (l ++ t) : Int) + 1 := by
  have hl : lineFeed ∉ l := fun hmem => hlf (List.mem_append_left _ hmem)
  rw [expandedWidth_eq hpos hl (tabsBeforeReturns_of_append h), expandedWidth_eq hpos hlf h, advance_append]

/-- Without tabs every symbol takes one column. -/
theorem advance_of_tab_notMem {t : Text} (ht : tab ∉ t) (tabSize column : Int) : advance tabSize column t = column + t.length := by
  induction t generalizing column with
  | nil => exact (Int.add_zero _).symm
  | cons x t ih =>
    simp only [List.mem_cons, not_or] at ht
    have hrest := ih ht.2 (column + 1)
    rw [advance] at hrest ⊢
    rw [List.foldl_cons, TabsAux.advanceStep_other _ _ (Ne.symm ht.1), hrest, List.length_cons]
    omega

/-- Tabs at the start of a line take the whole distance between two tab stops each. -/
theorem advance_tabs (tabSize : Int) (n : Nat) (k : Int) :
    advance tabSize (k * tabSize + 1) (List.replicate n tab) = (k + n) * tabSize + 1 := by
  induction n generalizing k with
  | zero => simp [advance]
  | succ n ih =>
    have hstep : advanceStep tabSize (k * tabSize + 1) tab = (k + 1) * tabSize + 1 := by
      rw [advanceStep, if_pos rfl, Int.add_sub_cancel, Int.mul_fmod_left, Int.sub_zero, Int.add_mul, Int.one_mul]
      omega
    have hrest := ih (k + 1)
    rw [advance] at hrest ⊢
    rw [List.replicate_succ, List.foldl_cons, hstep, hrest, Int.add_assoc, Int.add_comm 1, Int.natCast_succ]

/-- With tab stops that are some way apart no symbol goes back. -/
theorem le_advance {tabSize : Int} (hpos : 1 ≤ tabSize) (column : Int) (t : Text) : column ≤ advance tabSize column t := by
  induction t generalizing column with
  | nil => exact Int.le_refl _
  | cons x t ih =>
    have hstep : column ≤ advanceStep tabSize column x := by
      have hmod : (column - 1).fmod tabSize < tabSize := Int.fmod_lt_of_pos _ (by omega)
      unfold advanceStep
      split_ifs <;> omega
    exact Int.le_trans hstep (ih _)

/-- On a line without tabs and carriage returns the reader counts symbols too. -/
theorem expandedWidth_eq_length {t : Text} (ht : ∀ x ∈ t, x ≠ tab ∧ x ≠ carriageReturn ∧ x ≠ lineFeed) (tabSize : Int) :
    expandedWidth tabSize t = t.length := by
  have hfold : ∀ g w, (t.foldl (expandStep tabSize) (g, w)).2 = w + t.length := by
    induction t with
    | nil => exact fun g w => rfl
    | cons x t ih =>
      intro g w
      obtain ⟨htab, hreturn, hfeed⟩ := ht x List.mem_cons_self
      rw [List.foldl_cons, TabsAux.expandStep_other _ htab hreturn hfeed, ih fun y hy => ht y (List.mem_cons_of_mem _ hy),
        List.length_cons]
      omega
  rw [expandedWidth, hfold, Nat.zero_add]

/-- With tab stops that are some way apart every symbol takes a column at least. -/
theorem add_length_le_expandedWidth {tabSize : Int} (hpos : 1 ≤ tabSize) (t u : Text) :
    expandedWidth tabSize t + u.length ≤ expandedWidth tabSize (t ++ u) := by
  have hfold : ∀ (u : Text) (s : Nat × Nat), s.2 + u.length ≤ (u.foldl (expandStep tabSize) s).2 := by
    intro u
    induction u with
    | nil => exact fun s => Nat.le_refl _
    | cons x u ih =>
      intro s
      have hstep : s.2 + 1 ≤ (expandStep tabSize s x).2 := by
        have hmod : s.1 % tabSize.toNat < tabSize.toNat := Nat.mod_lt _ (by omega)
        have hsize : 0 < tabSize := hpos
        unfold expandStep
        simp only [hsize, if_true]
        split_ifs
        · show s.2 + 1 ≤ s.2 + (tabSize.toNat - s.1 % tabSize.toNat)
          omega
        · exact Nat.le_refl _
        · exact Nat.le_refl _
      have hrest := ih (expandStep tabSize s x)
      rw [List.foldl_cons, List.length_cons]
      omega
  rw [expandedWidth, expandedWidth, List.foldl_append]
  exact hfold u _

end CodeGroom.Text
