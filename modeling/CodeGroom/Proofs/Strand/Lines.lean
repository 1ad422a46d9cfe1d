import CodeGroom.Proofs.Strand.Order
import Mathlib.Data.List.TakeWhile

/-!
# Places and lines

In a strand that is linked, a lexeme has a place, the number of lexemes in front of it, and a line, the number of line breaks in
front of it. Walks and the rest of a line can be told by them.
-/

namespace CodeGroom.Strand

/-- The number of lexemes in front of lexeme `i`. -/
def placeOf (s : Strand) (i : Nat) : Nat := (s.before i).length

/-- The number of line breaks in front of lexeme `i`. -/
def lineOf (s : Strand) (i : Nat) : Nat := (s.before i).countP s.isNewline

variable {s : Strand} {p q u : List Nat} {i j k : Nat}

namespace Linked

theorem placeOf_eq (h : s.Linked (p ++ i :: q)) : s.placeOf i = p.length := by
  rw [placeOf, h.before_eq, List.length_reverse]

theorem lineOf_eq (h : s.Linked (p ++ i :: q)) : s.lineOf i = p.countP s.isNewline := by
  rw [lineOf, h.before_eq, List.countP_reverse]

/-- What stands behind some lexemes is further on by as many places. -/
theorem placeOf_behind (h : s.Linked (p ++ (u ++ j :: q))) : s.placeOf j = p.length + u.length := by
  rw [← List.append_assoc] at h
  rw [h.placeOf_eq, List.length_append]

/-- What stands behind some lexemes is further on by as many lines as there are line breaks among them. -/
theorem lineOf_behind (h : s.Linked (p ++ (u ++ j :: q))) :
    s.lineOf j = p.countP s.isNewline + u.countP s.isNewline := by
  rw [← List.append_assoc] at h
  rw [h.lineOf_eq, List.countP_append]

theorem mem_order_iff (h : s.Linked p) : i ∈ p ↔ i ∈ s.order := by rw [h.order_eq]

theorem placeOf_lt {m : List Nat} (h : s.Linked (p ++ i :: (m ++ j :: q))) : s.placeOf i < s.placeOf j := by
  have hj : s.placeOf j = p.length + (i :: m).length := placeOf_behind (u := i :: m) h
  rw [h.placeOf_eq, hj, List.length_cons]
  omega

end Linked

namespace WellLinked

variable (h : s.WellLinked)

include h

theorem mem_iff : i ∈ s.order ↔ i < s.size := Linked.mem_iff h i

/-- A lexeme with what stands in front of it and behind it. -/
theorem exists_around (hi : i ∈ s.order) : ∃ p q, s.Linked (p ++ i :: q) := by
  obtain ⟨p, q, hsplit⟩ := List.append_of_mem hi
  exact ⟨p, q, hsplit ▸ h⟩

/-- What follows a lexeme in the order is further on. -/
theorem exists_behind (hi : i ∈ s.order) (hj : j ∈ s.order) (hij : s.placeOf i < s.placeOf j) :
    ∃ p m q, s.Linked (p ++ i :: (m ++ j :: q)) := by
  obtain ⟨p, q, hlinked⟩ := h.exists_around hi
  have hmem : j ∈ p ++ i :: q := hlinked.mem_order_iff.2 hj
  rcases List.mem_append.1 hmem with hfront | hrest
  · obtain ⟨u, v, rfl⟩ := List.append_of_mem hfront
    have hj' : s.placeOf j = u.length := Linked.placeOf_eq (q := v ++ i :: q) (by simpa using hlinked)
    have hi' := hlinked.placeOf_eq
    rw [List.length_append, List.length_cons] at hi'
    omega
  · rcases List.mem_cons.1 hrest with rfl | hrest
    · exact absurd hij (Nat.lt_irrefl _)
    · obtain ⟨m, q', rfl⟩ := List.append_of_mem hrest
      exact ⟨p, m, q', hlinked⟩

theorem placeOf_inj (hi : i ∈ s.order) (hj : j ∈ s.order) (heq : s.placeOf i = s.placeOf j) : i = j := by
  obtain ⟨p, q, hlinked⟩ := h.exists_around hi
  obtain ⟨p', q', hlinked'⟩ := h.exists_around hj
  have hsame : p ++ i :: q = p' ++ j :: q' := hlinked.order_eq.symm.trans hlinked'.order_eq
  rw [hlinked.placeOf_eq, hlinked'.placeOf_eq] at heq
  exact (List.cons.inj (List.append_inj hsame heq).2).1

/-- Lines do not go back along the order. -/
theorem lineOf_mono (hi : i ∈ s.order) (hj : j ∈ s.order) (hij : s.placeOf i ≤ s.placeOf j) : s.lineOf i ≤ s.lineOf j := by
  rcases Nat.lt_or_eq_of_le hij with hlt | heq
  · obtain ⟨p, m, q, hlinked⟩ := h.exists_behind hi hj hlt
    have hj' : s.lineOf j = p.countP s.isNewline + (i :: m).countP s.isNewline := Linked.lineOf_behind (u := i :: m) hlinked
    rw [hlinked.lineOf_eq, hj']
    exact Nat.le_add_right _ _
  · exact Nat.le_of_eq (congrArg s.lineOf (h.placeOf_inj hi hj heq))

/-- Behind a line break another line begins. -/
theorem lineOf_lt_of_newline (hi : i ∈ s.order) (hj : j ∈ s.order) (hij : s.placeOf i < s.placeOf j)
    (hnewline : s.isNewline i = true) : s.lineOf i < s.lineOf j := by
  obtain ⟨p, m, q, hlinked⟩ := h.exists_behind hi hj hij
  have hj' : s.lineOf j = p.countP s.isNewline + (i :: m).countP s.isNewline := Linked.lineOf_behind (u := i :: m) hlinked
  rw [hlinked.lineOf_eq, hj', List.countP_cons_of_pos hnewline]
  omega

/-- What stands behind a lexeme is what is further on. -/
theorem mem_after_iff (hi : i ∈ s.order) : j ∈ s.after i ↔ j ∈ s.order ∧ s.placeOf i < s.placeOf j := by
  obtain ⟨p, q, hlinked⟩ := h.exists_around hi
  rw [hlinked.after_eq]
  refine ⟨fun hj => ⟨hlinked.mem_order_iff.1 (by simp [hj]), ?_⟩, fun ⟨hj, hij⟩ => ?_⟩
  · obtain ⟨m, q', rfl⟩ := List.append_of_mem hj
    exact hlinked.placeOf_lt
  · obtain ⟨p', m, q', hlinked'⟩ := h.exists_behind hi hj hij
    have hafter := hlinked'.after_eq
    rw [hlinked.after_eq] at hafter
    rw [hafter]
    simp

/-- What is further on than one lexeme and less far than another one stands between them. -/
theorem mem_middle {m : List Nat} (hlinked : s.Linked (p ++ i :: (m ++ j :: q))) (hk : k ∈ s.order)
    (hik : s.placeOf i < s.placeOf k) (hkj : s.placeOf k < s.placeOf j) : k ∈ m := by
  have hafter : k ∈ s.after i := (h.mem_after_iff (hlinked.mem_order_iff.1 (by simp))).2 ⟨hk, hik⟩
  rw [hlinked.after_eq] at hafter
  rcases List.mem_append.1 hafter with hm | hq
  · exact hm
  · rcases List.mem_cons.1 hq with rfl | hq
    · exact absurd hkj (Nat.lt_irrefl _)
    · obtain ⟨u, v, rfl⟩ := List.append_of_mem hq
      have hlt : s.placeOf j < s.placeOf k := Linked.placeOf_lt (p := p ++ i :: m) (m := u) (q := v) (by simpa using hlinked)
      omega

/-- Names that follow each other on a path of the order are further on one by one. -/
theorem placeOf_lt_of_sublist (hij : [i, j].Sublist s.order) : s.placeOf i < s.placeOf j := by
  obtain ⟨l, r, hlr, hil, hjr⟩ := List.cons_sublist_iff.1 hij
  obtain ⟨p, m, rfl⟩ := List.append_of_mem hil
  obtain ⟨m', q, rfl⟩ := List.append_of_mem (List.singleton_sublist.1 hjr)
  have hlinked : s.Linked s.order := h
  rw [hlr] at hlinked
  exact Linked.placeOf_lt (p := p) (m := m ++ m') (q := q) (by simpa using hlinked)

theorem placeOf_next (hi : i ∈ s.order) (hnext : s.nextOf i = some j) : j ∈ s.order ∧ s.placeOf j = s.placeOf i + 1 := by
  obtain ⟨p, q, hlinked⟩ := h.exists_around hi
  rw [hlinked.nextOf_eq p i q rfl] at hnext
  obtain ⟨q, rfl⟩ := List.head?_eq_some_iff.1 hnext
  refine ⟨hlinked.mem_order_iff.1 (by simp), ?_⟩
  have hj : s.placeOf j = p.length + [i].length := Linked.placeOf_behind (u := [i]) hlinked
  rw [hj, hlinked.placeOf_eq, List.length_singleton]

/-- The next lexeme stands on the same line, unless a line break ends it. -/
theorem lineOf_next (hi : i ∈ s.order) (hnext : s.nextOf i = some j) (hnewline : s.isNewline i = false) :
    s.lineOf j = s.lineOf i := by
  obtain ⟨p, q, hlinked⟩ := h.exists_around hi
  rw [hlinked.nextOf_eq p i q rfl] at hnext
  obtain ⟨q, rfl⟩ := List.head?_eq_some_iff.1 hnext
  have hj : s.lineOf j = p.countP s.isNewline + [i].countP s.isNewline := Linked.lineOf_behind (u := [i]) hlinked
  rw [hj, hlinked.lineOf_eq, List.countP_singleton, hnewline]
  rfl

/-- The rest of a line: what is on that line, no line break and not in front. -/
theorem mem_restOfLine_iff (hi : i ∈ s.order) : j ∈ s.restOfLine (some i) ↔
    j ∈ s.order ∧ s.isNewline j = false ∧ s.lineOf j = s.lineOf i ∧ s.placeOf i ≤ s.placeOf j := by
  obtain ⟨p, q, hlinked⟩ := h.exists_around hi
  have hrest : s.restOfLine (some i) = (i :: q).takeWhile (!s.isNewline ·) := by
    rw [restOfLine, onward, hlinked.after_eq]
  rw [hrest, hlinked.lineOf_eq, hlinked.placeOf_eq]
  constructor
  · intro hj
    obtain ⟨u, v, hsplit⟩ := List.append_of_mem hj
    have hnone : ∀ x ∈ u ++ j :: v, s.isNewline x = false := fun x hx => by
      have hpass := List.mem_takeWhile_imp (hsplit ▸ hx)
      simpa using hpass
    obtain ⟨w, hw⟩ := List.takeWhile_prefix (l := i :: q) (!s.isNewline ·)
    have hlinked' : s.Linked (p ++ (u ++ j :: (v ++ w))) := by
      rw [← hw, hsplit] at hlinked
      simpa using hlinked
    refine ⟨hlinked'.mem_order_iff.1 (by simp), hnone j (by simp), ?_, ?_⟩
    · have hu : u.countP s.isNewline = 0 := List.countP_eq_zero.2 fun x hx => by simp [hnone x (List.mem_append_left _ hx)]
      rw [hlinked'.lineOf_behind, hu, Nat.add_zero]
    · rw [hlinked'.placeOf_behind]
      exact Nat.le_add_right _ _
  · rintro ⟨hj, hnewline, hline, hplace⟩
    have hmem : j ∈ i :: q := by
      rcases List.mem_append.1 (hlinked.mem_order_iff.2 hj) with hfront | hbehind
      · obtain ⟨u, v, rfl⟩ := List.append_of_mem hfront
        have hj' : s.placeOf j = u.length := Linked.placeOf_eq (q := v ++ i :: q) (by simpa using hlinked)
        rw [hj', List.length_append, List.length_cons] at hplace
        omega
      · exact hbehind
    obtain ⟨u, v, hsplit⟩ := List.append_of_mem hmem
    rw [hsplit] at hlinked ⊢
    rw [hlinked.lineOf_behind] at hline
    have hnone : ∀ x ∈ u, (!s.isNewline x) = true := fun x hx => by
      have hfree := List.countP_eq_zero.1 (by omega : u.countP s.isNewline = 0) x hx
      simpa using hfree
    rw [List.takeWhile_append_of_pos hnone, List.takeWhile_cons_of_pos (by simp [hnewline])]
    simp

theorem nodup_restOfLine (hi : i ∈ s.order) : (s.restOfLine (some i)).Nodup := by
  obtain ⟨p, q, hlinked⟩ := h.exists_around hi
  rw [restOfLine, onward, hlinked.after_eq]
  exact ((List.nodup_append.1 hlinked.nodup).2.1).sublist (List.takeWhile_sublist _)

end WellLinked

end CodeGroom.Strand
