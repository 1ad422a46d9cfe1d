import CodeGroom.Text.Lines
import Mathlib.Data.List.Basic

/-!
# Cutting a text behind the ends of its lines

Cutting loses nothing, whatever ends a line. The lines of a file and the lines at every line boundary are the same unless a symbol
that is a boundary, but ends no line of a file, stands in front of another symbol.
-/

namespace CodeGroom.Text

variable {ends : Symbol → Bool} {x : Symbol} {t : Text}

/-- Joining the parts gives the text. -/
theorem flatten_cutAfter (ends : Symbol → Bool) (t : Text) : (cutAfter ends t).flatten = t := by
  induction t with
  | nil => rfl
  | cons x t ih =>
    rw [cutAfter]
    split_ifs
    · rw [List.flatten_cons, ih, List.singleton_append]
    · cases hrest : cutAfter ends t with
      | nil =>
        rw [hrest, List.flatten_nil] at ih
        rw [← ih]
        rfl
      | cons l ls =>
        rw [hrest, List.flatten_cons] at ih
        rw [List.flatten_cons, List.cons_append, ih]

/-- No part is empty. -/
theorem ne_nil_of_mem_cutAfter {l : Text} (h : l ∈ cutAfter ends t) : l ≠ [] := by
  induction t generalizing l with
  | nil => cases h
  | cons x t ih =>
    rw [cutAfter] at h
    split_ifs at h
    · rcases List.mem_cons.1 h with rfl | h
      · exact List.cons_ne_nil _ _
      · exact ih h
    · cases hrest : cutAfter ends t with
      | nil =>
        rw [hrest, List.mem_singleton] at h
        rw [h]
        exact List.cons_ne_nil _ _
      | cons l' ls =>
        rw [hrest] at h
        rcases List.mem_cons.1 h with rfl | h
        · exact List.cons_ne_nil _ _
        · exact ih (hrest ▸ List.mem_cons_of_mem _ h)

/-- Whether a text is cut behind a symbol that some text follows. -/
def cutsBehind (ends : Symbol → Bool) (x : Symbol) (rest : Text) : Bool :=
  ends x && !(x = .char '\r' && rest.head? = some lineFeed)

theorem cutAfter_of_cuts (h : cutsBehind ends x t = true) : cutAfter ends (x :: t) = [x] :: cutAfter ends t := by
  unfold cutsBehind at h
  rw [cutAfter, if_pos h]

theorem exists_cutAfter_of_not_cuts (h : cutsBehind ends x t = false) (ht : t ≠ []) :
    ∃ l ls, l ≠ [] ∧ cutAfter ends t = l :: ls ∧ cutAfter ends (x :: t) = (x :: l) :: ls := by
  unfold cutsBehind at h
  cases hrest : cutAfter ends t with
  | nil =>
    have hflat := flatten_cutAfter ends t
    rw [hrest, List.flatten_nil] at hflat
    exact absurd hflat.symm ht
  | cons l ls =>
    refine ⟨l, ls, ne_nil_of_mem_cutAfter (hrest ▸ List.mem_cons_self), rfl, ?_⟩
    rw [cutAfter, if_neg (Bool.not_eq_true _ ▸ h), hrest]

theorem cutAfter_singleton (ends : Symbol → Bool) (x : Symbol) : cutAfter ends [x] = [[x]] := by
  rw [cutAfter]
  split_ifs <;> rfl

/-- What ends a line of a file is a line boundary. -/
theorem endsAnyLine_of_endsFileLine (h : endsFileLine x = true) : endsAnyLine x = true := by
  cases x with
  | byte b => cases h
  | char c =>
    have hsub : "\n\r".toList ⊆ "\n\r\x0b\x0c\x1c\x1d\x1e\u0085\u2028\u2029".toList := by decide
    exact List.contains_iff_mem.2 (hsub (List.contains_iff_mem.1 h))

theorem cutsBehind_endsFileLine (x : Symbol) (t : Text) :
    cutsBehind endsFileLine x t = (endsFileLine x && cutsBehind endsAnyLine x t) := by
  cases hx : endsFileLine x with
  | true => simp [cutsBehind, hx, endsAnyLine_of_endsFileLine hx]
  | false => simp [cutsBehind, hx]

/-- Behind a boundary that is not cut stands a line feed, so the boundary is a carriage return, which ends a line of a file. -/
theorem endsFileLine_of_not_cuts (h : cutsBehind endsAnyLine x t = false) (hx : endsAnyLine x = true) :
    endsFileLine x = true := by
  have hreturn : x = .char '\r' := by
    unfold cutsBehind at h
    simp only [hx, Bool.true_and, Bool.not_eq_false', Bool.and_eq_true, decide_eq_true_eq] at h
    exact h.1
  rw [hreturn]
  decide

/-- The lines of a file are those at every line boundary exactly if no symbol but the last one is a boundary that ends no line of
a file. -/
theorem fileLines_eq_allLines_iff (t : Text) :
    t.fileLines = t.allLines ↔ ∀ x ∈ t.dropLast, endsAnyLine x = true → endsFileLine x = true := by
  induction t with
  | nil => simp [fileLines, allLines, cutAfter]
  | cons x t ih =>
    cases t with
    | nil => simp [fileLines, allLines, cutAfter_singleton]
    | cons y t =>
      rw [List.dropLast_cons_cons, List.forall_mem_cons, ← ih, fileLines, allLines, fileLines, allLines]
      cases hany : cutsBehind endsAnyLine x (y :: t) with
      | true =>
        cases hx : endsFileLine x with
        | true =>
          have hfile : cutsBehind endsFileLine x (y :: t) = true := by rw [cutsBehind_endsFileLine, hx, hany, Bool.and_self]
          rw [cutAfter_of_cuts hany, cutAfter_of_cuts hfile]
          simp
        | false =>
          -- One line is cut behind the symbol, the other goes on.
          have hfile : cutsBehind endsFileLine x (y :: t) = false := by rw [cutsBehind_endsFileLine, hx, Bool.false_and]
          obtain ⟨l, ls, hl, -, hcut⟩ := exists_cutAfter_of_not_cuts hfile (List.cons_ne_nil y t)
          rw [cutAfter_of_cuts hany, hcut]
          rw [cutsBehind, Bool.and_eq_true] at hany
          simp [hl, hany.1]
      | false =>
        have hfile : cutsBehind endsFileLine x (y :: t) = false := by rw [cutsBehind_endsFileLine, hany, Bool.and_false]
        obtain ⟨l, ls, -, hrest, hcut⟩ := exists_cutAfter_of_not_cuts hfile (List.cons_ne_nil y t)
        obtain ⟨l', ls', -, hrest', hcut'⟩ := exists_cutAfter_of_not_cuts hany (List.cons_ne_nil y t)
        rw [hcut, hcut', hrest, hrest']
        simp only [List.cons.injEq, true_and]
        exact (and_iff_right fun hx => endsFileLine_of_not_cuts hany hx).symm

end CodeGroom.Text
