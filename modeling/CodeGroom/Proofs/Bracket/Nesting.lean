import CodeGroom.Lexeme.Kind
import Mathlib.Data.List.TakeWhile

/-!
# Brackets that are open

Brackets need not match. A closing bracket then takes the innermost open bracket of its shape off, and what was opened behind that
one is closed along with it; where no open bracket has its shape it closes nothing.
-/

namespace CodeGroom

/-- What is left of a list behind its first items that pass starts with the first one that does not. -/
theorem dropWhile_eq_cons_iff {α : Type} {passes : α → Bool} {l rest : List α} {x : α} :
    l.dropWhile passes = x :: rest ↔ ∃ front, l = front ++ x :: rest ∧ (∀ u ∈ front, passes u = true) ∧ passes x = false := by
  constructor
  · intro h
    refine ⟨l.takeWhile passes, ?_, fun u hu => List.mem_takeWhile_imp hu, ?_⟩
    · rw [← h, List.takeWhile_append_dropWhile]
    · have hhead := List.head?_dropWhile_not passes l
      rw [h] at hhead
      simpa using hhead
  · rintro ⟨front, rfl, hfront, hx⟩
    rw [List.dropWhile_append_of_pos hfront, List.dropWhile_cons_of_neg (by simp [hx])]

namespace Bracket

variable {α : Type} {shape : α → Bracket} {b : Bracket} {opened inner outer : List α} {o : α}

/-- The brackets that stay open behind a closing one of shape `b`, the innermost first. -/
def close (shape : α → Bracket) (b : Bracket) (opened : List α) : List α :=
  match opened.dropWhile (shape · ≠ b) with
  | [] => opened
  | _ :: outer => outer

theorem close_of_forall_ne (h : ∀ u ∈ opened, shape u ≠ b) : close shape b opened = opened := by
  have hdrop : opened.dropWhile (shape · ≠ b) = [] := List.dropWhile_eq_nil_iff.2 fun u hu => decide_eq_true (h u hu)
  rw [close, hdrop]

theorem close_append (hinner : ∀ u ∈ inner, shape u ≠ b) (ho : shape o = b) : close shape b (inner ++ o :: outer) = outer := by
  have hdrop : (inner ++ o :: outer).dropWhile (shape · ≠ b) = o :: outer :=
    dropWhile_eq_cons_iff.2 ⟨inner, rfl, fun u hu => decide_eq_true (hinner u hu), by simp [ho]⟩
  rw [close, hdrop]

/-- Either no open bracket has the shape, or the innermost one is taken off with all that was opened behind it. -/
theorem close_cases (shape : α → Bracket) (b : Bracket) (opened : List α) :
    ((∀ u ∈ opened, shape u ≠ b) ∧ close shape b opened = opened) ∨
      ∃ inner o outer, opened = inner ++ o :: outer ∧ shape o = b ∧ close shape b opened = outer := by
  cases hdrop : opened.dropWhile (shape · ≠ b) with
  | nil => exact .inl ⟨fun u hu => of_decide_eq_true (List.dropWhile_eq_nil_iff.1 hdrop u hu), by rw [close, hdrop]⟩
  | cons o outer =>
    obtain ⟨inner, hsplit, -, ho⟩ := dropWhile_eq_cons_iff.1 hdrop
    exact .inr ⟨inner, o, outer, hsplit, by simpa using ho, by rw [close, hdrop]⟩

/-- What stays open was open. -/
theorem close_suffix (shape : α → Bracket) (b : Bracket) (opened : List α) : close shape b opened <:+ opened := by
  rcases close_cases shape b opened with ⟨-, hnone⟩ | ⟨inner, o, outer, rfl, -, hclose⟩
  · exact hnone.symm ▸ List.suffix_refl opened
  · rw [hclose]
    exact ⟨inner ++ [o], by simp⟩

end Bracket

/-- The shapes of the brackets open behind a lexeme of some kind, those in front of it being `opened`. -/
def Kind.nest (opened : List Bracket) : Kind → List Bracket
  | .opening b => b :: opened
  | .closing b => b.close id opened
  | _ => opened

/-- The outermost bracket stays the same until it is closed. -/
theorem Kind.getLast?_nest {opened : List Bracket} {b : Bracket} (h : opened.getLast? = some b) {k : Kind} (hk : k.nest opened ≠ []) :
    (k.nest opened).getLast? = some b := by
  unfold nest at hk ⊢
  split
  · rw [List.getLast?_cons, h]
    rfl
  · rename_i b'
    obtain ⟨inner, hinner⟩ := Bracket.close_suffix id b' opened
    obtain ⟨c, hc⟩ := Option.ne_none_iff_exists'.1 (mt List.getLast?_eq_none_iff.1 hk)
    rw [← hinner, List.getLast?_append, hc, Option.some_or] at h
    exact hc.trans h
  · exact h

/-- Only a bracket of its own shape closes the outermost one. -/
theorem Kind.eq_closing_of_nest {opened : List Bracket} {b : Bracket} (h : opened.getLast? = some b) {k : Kind}
    (hk : k.nest opened = []) : k = .closing b := by
  unfold nest at hk
  split at hk
  · cases hk
  · rename_i b'
    rcases Bracket.close_cases id b' opened with ⟨-, hnone⟩ | ⟨inner, o, outer, rfl, rfl, hclose⟩
    · rw [← hnone, hk] at h
      cases h
    · rw [hclose] at hk
      rw [hk, List.getLast?_concat] at h
      rw [Option.some.inj h]
      rfl
  · rw [hk] at h
    cases h

end CodeGroom
