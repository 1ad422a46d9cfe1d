import CodeGroom.Proofs.Grouping.Enclose
import CodeGroom.Proofs.Layout.Written

/-!
# Strands with their columns

A listing with columns shows what an insertion does to the rest of its line: the line is shifted by one column up to its line
break. Depths are left out, for the text of a strand does not depend on them.
-/

namespace CodeGroom

/-- Shifts entries by some columns, up to the first line break. -/
def Entry.shiftLine (n : Int) : List Entry → List Entry
  | [] => []
  | e :: es => e.change (·.shift n) :: if e.lexeme.isNewline then es else shiftLine n es

/-- Shifting a line leaves the names. -/
theorem Entry.names_shiftLine (n : Int) (es : List Entry) : names (shiftLine n es) = names es := by
  induction es with
  | nil => rfl
  | cons e es ih =>
    rw [shiftLine, names_cons, names_cons]
    split_ifs
    · rfl
    · rw [ih]
      rfl

/-- A line is shifted as a whole: what comes behind its line break stays. -/
theorem Entry.exists_shiftLine (n : Int) (es : List Entry) : ∃ m q, es = m ++ q ∧ shiftLine n es = m.map (change (·.shift n)) ++ q ∧
    m = es.takeWhile (!·.lexeme.isNewline) ++ (es.dropWhile (!·.lexeme.isNewline)).take 1 := by
  induction es with
  | nil => exact ⟨[], [], rfl, rfl, rfl⟩
  | cons e es ih =>
    cases he : e.lexeme.isNewline with
    | true => exact ⟨[e], es, rfl, by simp [shiftLine, he], by simp [he]⟩
    | false =>
      obtain ⟨m, q, rfl, hshift, hm⟩ := ih
      refine ⟨e :: m, q, rfl, by simp [shiftLine, he, hshift], ?_⟩
      simp only [List.takeWhile_cons, List.dropWhile_cons, he, Bool.not_false, if_true, List.cons_append]
      rw [← hm]

/-- The newest of some lexemes is listed last. -/
theorem Entry.exists_eq_concat {es : List Entry} {x : Lexeme} {xs : List Lexeme}
    (h : lexemes es = (x :: xs).reverse.map Lexeme.flat) :
    ∃ es' i, es = es' ++ [⟨i, x.flat⟩] ∧ lexemes es' = xs.reverse.map Lexeme.flat := by
  rw [List.reverse_cons, List.map_append] at h
  obtain ⟨es', es₁, rfl, hes', hlast⟩ := List.map_eq_append_iff.1 h
  obtain ⟨⟨i, y⟩, rfl⟩ : ∃ e, es₁ = [e] := List.length_eq_one_iff.1 (by simpa using congrArg List.length hlast)
  obtain rfl : y = x.flat := List.singleton_inj.1 hlast
  exact ⟨es', i, rfl, hes'⟩

namespace Strand

open Grouping

variable {s : Strand} {es p q m : List Entry} {e x y : Entry} {f : Lexeme → Lexeme} {is : List Nat} {j : Nat}

/-- A change of some lexemes changes each of them once. -/
theorem lexeme_modifyAll (hnodup : is.Nodup) (hj : j < s.size) :
    (s.modifyAll is f).lexeme (some j) = if j ∈ is then f (s.lexeme (some j)) else s.lexeme (some j) := by
  induction is generalizing s with
  | nil => rfl
  | cons i is ih =>
    obtain ⟨hi, hnodup⟩ := List.nodup_cons.1 hnodup
    have hstep := ih (s := s.modify i f) hnodup (by rwa [size_modify])
    show ((s.modify i f).modifyAll is f).lexeme (some j) = _
    rw [hstep]
    by_cases hji : j = i
    · subst hji
      rw [if_neg hi, if_pos List.mem_cons_self, lexeme_modify_self hj]
    · simp only [lexeme_modify_of_ne hji, List.mem_cons, hji, false_or]

/-- The strand holds the lexemes of a listing in its order, apart from their depths. -/
structure Shows (s : Strand) (es : List Entry) : Prop where
  linked : s.Linked (Entry.names es)
  flat_eq : ∀ e ∈ es, (s.lexeme (some e.name)).flat = e.lexeme

/-- The listing of a strand with columns. -/
def rows (s : Strand) : List Entry := s.order.map fun i => ⟨i, (s.lexeme (some i)).flat⟩

/-- The rows of a strand are named in its order. -/
theorem names_rows (s : Strand) : Entry.names s.rows = s.order := by
  simp [rows, Entry.names, Function.comp_def]

/-- Depths apart, the rows of a strand hold its lexemes. -/
theorem lexemes_rows (s : Strand) : Entry.lexemes s.rows = s.lexemes.map Lexeme.flat := by
  simp [rows, Entry.lexemes, lexemes, Function.comp_def]

/-- A well-linked strand shows its rows. -/
theorem WellLinked.shows (h : s.WellLinked) : s.Shows s.rows where
  linked := by rwa [names_rows]
  flat_eq e he := by
    obtain ⟨i, -, rfl⟩ := List.mem_map.1 he
    rfl

namespace Shows

/-- The names of a listing are the order of the strand. -/
theorem order_eq (h : s.Shows es) : s.order = Entry.names es := h.linked.order_eq

/-- A strand shows one listing only. -/
theorem rows_eq (h : s.Shows es) : s.rows = es := by
  rw [rows, h.order_eq, Entry.names, List.map_map]
  conv_rhs => rw [← List.map_id es]
  refine List.map_congr_left ?_
  intro e he
  simp only [Function.comp, h.flat_eq e he, id]

/-- A listing is as long as the strand. -/
theorem length_eq (h : s.Shows es) : es.length = s.size := by
  rw [← h.linked.length_eq, Entry.names, List.length_map]

/-- Every entry of a listing is in the strand. -/
theorem name_lt (h : s.Shows es) (he : e ∈ es) : e.name < s.size := h.linked.lt_size (Entry.mem_names he)

/-- An entry has the kind of its lexeme. -/
theorem kind_eq (h : s.Shows es) (he : e ∈ es) : (s.lexeme (some e.name)).kind = e.kind := by
  rw [Entry.kind, ← h.flat_eq e he]
  rfl

theorem inDirective_eq (h : s.Shows es) (he : e ∈ es) : s.inDirective e.name = e.inDirective := by
  rw [Entry.inDirective, ← h.flat_eq e he]
  rfl

theorem isLayout_eq (h : s.Shows es) (he : e ∈ es) : Skip.layout.passes (s.lexeme (some e.name)) = e.isLayout := by
  rw [Entry.isLayout, ← h.flat_eq e he]
  rfl

theorem isNewline_eq (h : s.Shows es) (he : e ∈ es) : s.isNewline e.name = e.lexeme.isNewline := by
  rw [← h.flat_eq e he]
  rfl

/-- Every lexeme has an entry. -/
theorem exists_entry (h : s.Shows es) (hj : j ∈ s.order) : ∃ e ∈ es, e.name = j := by
  rw [h.order_eq] at hj
  exact List.mem_map.1 hj

/-- What is not changed but for depths is listed as before. -/
theorem modifyAll_of_flat (h : s.Shows es) (hf : ∀ x, (f x).flat = x.flat) (is : List Nat) : (s.modifyAll is f).Shows es := by
  induction is generalizing s with
  | nil => exact h
  | cons i is ih =>
    refine ih ⟨h.linked.modify f, ?_⟩
    intro e he
    rw [← h.flat_eq e he]
    by_cases hi : e.name = i
    · rw [← hi, lexeme_modify_self (h.name_lt he), hf]
    · rw [lexeme_modify_of_ne hi]

/-- A change of some lexemes shows in their entries. -/
theorem modifyAll_change (h : s.Shows (p ++ m ++ q)) (hf : ∀ x, (f x).flat = f x.flat) :
    (s.modifyAll (Entry.names m) f).Shows (p ++ m.map (Entry.change f) ++ q) := by
  have hnodup := h.linked.nodup
  simp only [Entry.names_append, List.nodup_append] at hnodup
  obtain ⟨⟨-, hm, hpm⟩, -, hmq⟩ := hnodup
  refine ⟨?_, ?_⟩
  · have hlinked := h.linked.modifyAll (Entry.names m) f
    simpa using hlinked
  · intro e he
    simp only [List.mem_append, List.mem_map] at he
    rcases he with (he | ⟨e, he, rfl⟩) | he
    · have hnot : e.name ∉ Entry.names m := fun hmem => hpm _ (Entry.mem_names he) _ hmem rfl
      rw [lexeme_modifyAll hm (h.name_lt (by simp [he])), if_neg hnot, h.flat_eq e (by simp [he])]
    · show ((s.modifyAll (Entry.names m) f).lexeme (some e.name)).flat = f e.lexeme
      rw [lexeme_modifyAll hm (h.name_lt (by simp [he])), if_pos (Entry.mem_names he), hf, h.flat_eq e (by simp [he])]
    · have hnot : e.name ∉ Entry.names m := fun hmem =>
        hmq _ (List.mem_append_right _ hmem) _ (Entry.mem_names he) rfl
      rw [lexeme_modifyAll hm (h.name_lt (by simp [he])), if_neg hnot, h.flat_eq e (by simp [he])]

/-- The rest of a line with its line break, as the listing shows it. -/
theorem restWithBreak_eq (h : s.Shows (p ++ q)) : s.restWithBreak (q.head?.map (·.name)) =
    Entry.names (q.takeWhile (!·.lexeme.isNewline) ++ (q.dropWhile (!·.lexeme.isNewline)).take 1) := by
  have honward : s.onward (q.head?.map (·.name)) = Entry.names q := by
    cases q with
    | nil => rfl
    | cons e q =>
      have hl := h.linked
      rw [Entry.names_append, Entry.names_cons] at hl
      rw [List.head?_cons, Option.map_some, onward, hl.after_eq, Entry.names_cons]
  have hnewline : ∀ e ∈ q, (!s.isNewline e.name) = !e.lexeme.isNewline := by
    intro e he
    rw [h.isNewline_eq (List.mem_append_right _ he)]
  have hsame : ∀ l : List Entry, (∀ e ∈ l, (!s.isNewline e.name) = !e.lexeme.isNewline) →
      (Entry.names l).takeWhile (!s.isNewline ·) = Entry.names (l.takeWhile (!·.lexeme.isNewline)) ∧
        (Entry.names l).dropWhile (!s.isNewline ·) = Entry.names (l.dropWhile (!·.lexeme.isNewline)) := by
    intro l hl
    induction l with
    | nil => exact ⟨rfl, rfl⟩
    | cons e l ih =>
      obtain ⟨htake, hdrop⟩ := ih fun u hu => hl u (List.mem_cons_of_mem _ hu)
      rw [Entry.names_cons, List.takeWhile_cons, List.dropWhile_cons, List.takeWhile_cons, List.dropWhile_cons,
        hl e List.mem_cons_self]
      split_ifs
      · exact ⟨congrArg _ htake, hdrop⟩
      · exact ⟨rfl, rfl⟩
  obtain ⟨htake, hdrop⟩ := hsame q hnewline
  rw [restWithBreak, restOfLine, honward, htake, hdrop, Entry.names_append, Entry.names, Entry.names, Entry.names, List.map_take]

/-- Shifting a line shows in the entries of that line. -/
theorem shiftLine (h : s.Shows (p ++ q)) (n : Int) :
    (s.shiftLine (q.head?.map (·.name)) n).Shows (p ++ Entry.shiftLine n q) := by
  obtain ⟨m, r, rfl, hshift, hm⟩ := Entry.exists_shiftLine n q
  rw [Strand.shiftLine, h.restWithBreak_eq, ← hm, hshift]
  have hsplit : s.Shows (p ++ m ++ r) := by rwa [List.append_assoc]
  have hchanged := hsplit.modifyAll_change (f := (·.shift n)) fun _ => rfl
  rwa [List.append_assoc] at hchanged

/-- A listing after an insertion: the new lexeme is listed where it was put. -/
theorem of_insertBetween {prev next : Option Nat} {x : Lexeme} (h : s.Shows (p ++ q))
    (hl : (s.insertBetween prev next x).Linked (Entry.names p ++ s.size :: Entry.names q)) :
    (s.insertBetween prev next x).Shows (p ++ ⟨s.size, x.flat⟩ :: q) where
  linked := by rwa [Entry.names_append, Entry.names_cons]
  flat_eq e he := by
    by_cases hnew : e = ⟨s.size, x.flat⟩
    · rw [hnew, lexeme_insertBetween_new]
    · have hold : e ∈ p ++ q := by
        simp only [List.mem_append, List.mem_cons] at he ⊢
        tauto
      rw [lexeme_insertBetween (h.name_lt hold), h.flat_eq e hold]

/-- A lexeme inserted in front of another one is listed there. -/
theorem insertBefore (h : s.Shows (p ++ e :: q)) (x : Lexeme) :
    (s.insertBefore (some e.name) x).Shows (p ++ ⟨s.size, x.flat⟩ :: e :: q) := by
  have hl := h.linked
  rw [Entry.names_append, Entry.names_cons] at hl
  refine h.of_insertBetween ?_
  rw [Entry.names_cons]
  exact hl.insertBefore x

/-- A lexeme inserted behind another one is listed there. -/
theorem insertAfter (h : s.Shows (p ++ e :: q)) (x : Lexeme) :
    (s.insertAfter (some e.name) x).Shows (p ++ e :: ⟨s.size, x.flat⟩ :: q) := by
  have hl := h.linked
  rw [Entry.names_append, Entry.names_cons] at hl
  have hsplit : s.Shows ((p ++ [e]) ++ q) := by rwa [List.append_assoc, List.singleton_append]
  have hinsert : (s.insertAfter (some e.name) x).Shows ((p ++ [e]) ++ ⟨s.size, x.flat⟩ :: q) := by
    refine hsplit.of_insertBetween ?_
    rw [Entry.names_append, Entry.names_cons, Entry.names_nil, List.append_assoc, List.singleton_append]
    exact hl.insertAfter x
  rwa [List.append_assoc, List.singleton_append] at hinsert

/-- An opening parenthesis shifts the lexeme that it precedes and the rest of its line. -/
theorem openAt (h : s.Shows (p ++ x :: q)) :
    (openAt s (some x.name)).Shows (p ++ ⟨s.size, openingBefore x.lexeme⟩ :: Entry.shiftLine 1 (x :: q)) := by
  have hopening : (openingBefore (s.lexeme (some x.name))).flat = openingBefore x.lexeme := by
    rw [← h.flat_eq x (by simp)]
    rfl
  have hinsert := h.insertBefore (openingBefore (s.lexeme (some x.name)))
  rw [hopening, List.append_cons] at hinsert
  have hshift := hinsert.shiftLine 1
  rwa [← List.append_cons] at hshift

/-- A closing parenthesis shifts the rest of the line behind it. -/
theorem closeAt (h : s.Shows (p ++ y :: q)) :
    (closeAt s (some y.name)).Shows (p ++ y :: ⟨s.size, closingAfter y.lexeme⟩ :: Entry.shiftLine 1 q) := by
  have hclosing : (closingAfter (s.lexeme (some y.name))).flat = closingAfter y.lexeme := by
    rw [← h.flat_eq y (by simp)]
    rfl
  have hinsert := h.insertAfter (closingAfter (s.lexeme (some y.name)))
  rw [hclosing] at hinsert
  have hnext : (s.insertAfter (some y.name) (closingAfter (s.lexeme (some y.name)))).nextOf s.size =
      q.head?.map (·.name) := by
    rw [hinsert.linked.nextOf_eq (Entry.names (p ++ [y])) s.size (Entry.names q) (by simp), Entry.names, List.head?_map]
  have hsplit : (s.insertAfter (some y.name) (closingAfter (s.lexeme (some y.name)))).Shows
      ((p ++ [y, ⟨s.size, closingAfter y.lexeme⟩]) ++ q) := by simpa using hinsert
  have hshift := hsplit.shiftLine 1
  rw [Grouping.closeAt, hnext]
  simpa using hshift

end Shows

end Strand

end CodeGroom
