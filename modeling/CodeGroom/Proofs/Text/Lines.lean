import CodeGroom.Text.Lines
import Mathlib.Data.List.Basic

/-!
# Cutting a text into lines and joining them

`lines` and `unlines` undo each other. A text behind the last line feed belongs to the last line, so what is added to or taken
from the end of a text without a line feed changes that line only.
-/

namespace CodeGroom.Text

/-- A line feed ends an empty line. -/
theorem lines_cons_lineFeed (t : Text) : lines (lineFeed :: t) = [] :: lines t := by
  simp [lines]

/-- There is a line at least. -/
theorem lines_ne_nil (t : Text) : lines t ≠ [] := by
  cases t with
  | nil => simp [lines]
  | cons x t =>
    by_cases hx : x = lineFeed
    · simp [lines, hx]
    · cases h : lines t <;> simp [lines, hx, h]

/-- There is one line more than there are line feeds. -/
theorem length_lines (t : Text) : (lines t).length = t.count lineFeed + 1 := by
  induction t with
  | nil => rfl
  | cons x t ih =>
    by_cases hx : x = lineFeed
    · rw [hx, lines_cons_lineFeed, List.length_cons, ih, List.count_cons_self]
    · rw [List.count_cons_of_ne hx, ← ih]
      cases h : lines t <;> simp [lines, hx, h]
      exact absurd h (lines_ne_nil t)

/-- Any other symbol belongs to the first line. -/
theorem lines_cons {x : Symbol} (hx : x ≠ lineFeed) (t : Text) :
    ∃ l ls, lines t = l :: ls ∧ lines (x :: t) = (x :: l) :: ls := by
  cases h : lines t with
  | nil => exact absurd h (lines_ne_nil t)
  | cons l ls => exact ⟨l, ls, rfl, by simp [lines, hx, h]⟩

@[simp] theorem unlines_singleton (l : Text) : unlines [l] = l := by
  simp [unlines]

/-- Lines are put together with line feeds between them. -/
theorem unlines_cons_cons (l l' : Text) (ls : List Text) :
    unlines (l :: l' :: ls) = l ++ lineFeed :: unlines (l' :: ls) := by
  simp [unlines, List.intercalate_cons_cons]

theorem unlines_cons_eq (x : Symbol) (l : Text) (ls : List Text) : unlines ((x :: l) :: ls) = x :: unlines (l :: ls) := by
  cases ls with
  | nil => simp
  | cons l' ls => simp [unlines_cons_cons]

/-- Joining the lines of a text gives the text. -/
theorem unlines_lines (t : Text) : unlines (lines t) = t := by
  induction t with
  | nil => simp [lines]
  | cons x t ih =>
    by_cases hx : x = lineFeed
    · subst hx
      obtain ⟨l, ls, h⟩ := List.exists_cons_of_ne_nil (lines_ne_nil t)
      rw [lines_cons_lineFeed, h, unlines_cons_cons, ← h, ih, List.nil_append]
    · obtain ⟨l, ls, h, h'⟩ := lines_cons hx t
      rw [h', unlines_cons_eq, ← h, ih]

/-- No line has a line feed. -/
theorem lineFeed_notMem_lines {t l : Text} (h : l ∈ lines t) : lineFeed ∉ l := by
  induction t generalizing l with
  | nil =>
    simp only [lines, List.mem_singleton] at h
    simp [h]
  | cons x t ih =>
    by_cases hx : x = lineFeed
    · subst hx
      rw [lines_cons_lineFeed, List.mem_cons] at h
      rcases h with rfl | h
      · exact List.not_mem_nil
      · exact ih h
    · obtain ⟨l', ls, h1, h2⟩ := lines_cons hx t
      rw [h2, List.mem_cons] at h
      rcases h with rfl | h
      · simp only [List.mem_cons, not_or]
        exact ⟨Ne.symm hx, ih (h1 ▸ List.mem_cons_self)⟩
      · exact ih (h1 ▸ List.mem_cons_of_mem _ h)

/-- A text without line feeds belongs to the first line. -/
theorem lines_append_of_notMem {l : Text} (hl : lineFeed ∉ l) (t : Text) :
    ∃ m ls, lines t = m :: ls ∧ lines (l ++ t) = (l ++ m) :: ls := by
  induction l with
  | nil =>
    obtain ⟨m, ls, h⟩ := List.exists_cons_of_ne_nil (lines_ne_nil t)
    exact ⟨m, ls, h, h⟩
  | cons x l ih =>
    simp only [List.mem_cons, not_or] at hl
    obtain ⟨m, ls, h1, h2⟩ := ih hl.2
    obtain ⟨m', ls', h3, h4⟩ := lines_cons (Ne.symm hl.1) (l ++ t)
    rw [h2] at h3
    obtain ⟨rfl, rfl⟩ := List.cons.inj h3
    exact ⟨m, ls, h1, h4⟩

/-- Behind a line feed the lines are those of what follows. -/
theorem lines_suffix_of_getLast? {p : Text} (hp : p.getLast? = some lineFeed) (t : Text) :
    lines t <:+ (lines (p ++ t)).tail := by
  induction p with
  | nil => cases hp
  | cons x p ih =>
    cases p with
    | nil =>
      obtain rfl : x = lineFeed := by simpa using hp
      have htail : (lines ([lineFeed] ++ t)).tail = lines t := by
        rw [List.singleton_append, lines_cons_lineFeed, List.tail_cons]
      exact htail ▸ List.suffix_refl _
    | cons y p =>
      have hrest := ih (by simpa using hp)
      rw [List.cons_append]
      by_cases hx : x = lineFeed
      · rw [hx, lines_cons_lineFeed, List.tail_cons]
        exact hrest.trans (List.tail_suffix _)
      · obtain ⟨l, ls, h1, h2⟩ := lines_cons hx (y :: p ++ t)
        rw [h1, List.tail_cons] at hrest
        rwa [h2, List.tail_cons]

/-- Cutting joined lines gives the lines, if there is one at least and none has a line feed. -/
theorem lines_unlines {ls : List Text} (hne : ls ≠ []) (hls : ∀ l ∈ ls, lineFeed ∉ l) : lines (unlines ls) = ls := by
  induction ls with
  | nil => exact absurd rfl hne
  | cons l ls ih =>
    have hl := hls l List.mem_cons_self
    cases ls with
    | nil =>
      obtain ⟨m, ms, h1, h2⟩ := lines_append_of_notMem hl []
      obtain ⟨rfl, rfl⟩ := List.cons.inj h1
      rw [List.append_nil] at h2
      rw [unlines_singleton, h2]
    | cons l' ls =>
      have hrest := ih (List.cons_ne_nil _ _) fun m hm => hls m (List.mem_cons_of_mem _ hm)
      obtain ⟨m, ms, h1, h2⟩ := lines_append_of_notMem hl (lineFeed :: unlines (l' :: ls))
      rw [lines_cons_lineFeed, hrest] at h1
      obtain ⟨rfl, rfl⟩ := List.cons.inj h1
      rw [unlines_cons_cons, h2, List.append_nil]

/-- The lines in front of the last one, each with its line feed, and the last one. -/
theorem unlines_concat (ls : List Text) (l : Text) :
    unlines (ls ++ [l]) = (ls.map (· ++ [lineFeed])).flatten ++ l := by
  induction ls with
  | nil => simp
  | cons l' ls ih =>
    obtain ⟨m, ms, h⟩ := List.exists_cons_of_ne_nil (show ls ++ [l] ≠ [] by simp)
    rw [List.cons_append, h, unlines_cons_cons, ← h, ih]
    simp

/-- A text written behind the last line lengthens that line. -/
theorem unlines_concat_append (ls : List Text) (l t : Text) : unlines (ls ++ [l ++ t]) = unlines (ls ++ [l]) ++ t := by
  simp [unlines_concat]

/-- A line feed behind the last line leaves an empty line. -/
theorem unlines_concat_nil (ls : List Text) (l : Text) : unlines (ls ++ [l, []]) = unlines (ls ++ [l]) ++ [lineFeed] := by
  rw [← List.singleton_append, ← List.append_assoc, unlines_concat, unlines_concat]
  simp

/-- Line feeds written behind the last line leave empty lines. -/
theorem unlines_concat_replicate (ls : List Text) (l : Text) (n : Nat) :
    unlines (ls ++ l :: List.replicate n [] ++ [[]]) = unlines (ls ++ [l]) ++ List.replicate (n + 1) lineFeed := by
  induction n generalizing ls l with
  | zero => simpa using unlines_concat_nil ls l
  | succ n ih =>
    have h := ih (ls ++ [l]) []
    simp only [List.append_assoc, List.cons_append, List.nil_append] at h
    rw [List.replicate_succ, List.append_assoc, List.cons_append, List.cons_append, h, unlines_concat_nil,
      List.append_assoc, List.singleton_append, ← List.replicate_succ]

/-- What stands behind the last line feed of a text is the end of its last line. -/
theorem exists_last_of_append {ls : List Text} {last p rest : Text} (h : unlines (ls ++ [last]) = p ++ rest)
    (hrest : lineFeed ∉ rest) : ∃ x, last = x ++ rest ∧ p = unlines (ls ++ [x]) := by
  rw [unlines_concat] at h
  rcases List.append_eq_append_iff.1 h with ⟨a, hp, hlast⟩ | ⟨c, hls, hr⟩
  · exact ⟨a, hlast, by rw [hp, unlines_concat]⟩
  · -- The rest reaches in front of the last line only if it holds the line feed that stands there.
    obtain rfl : c = [] := by
      rcases List.eq_nil_or_concat ls with rfl | ⟨init, l, rfl⟩
      · exact (List.append_eq_nil_iff.1 (by simpa using hls.symm)).2
      · rcases List.eq_nil_or_concat c with rfl | ⟨c', x, rfl⟩
        · rfl
        · simp only [List.concat_eq_append, List.map_append, List.map_cons, List.map_nil, List.flatten_append,
            List.flatten_cons, List.flatten_nil, List.append_nil, ← List.append_assoc] at hls
          have hx := (List.append_inj' hls rfl).2
          rw [hr, List.concat_eq_append, ← List.cons.inj hx |>.1] at hrest
          simp at hrest
    refine ⟨[], hr.symm, ?_⟩
    rw [unlines_concat, List.append_nil, hls, List.append_nil]

end CodeGroom.Text
