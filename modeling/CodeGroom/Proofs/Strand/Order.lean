import CodeGroom.Strand.Columns
import Mathlib.Data.List.Induction
import Mathlib.Data.List.Nodup

/-!
# The order of a strand

A strand is linked along a list of names when that list holds every lexeme once and every link leads to a neighbour in it. The
walks then run along the list, and an insertion puts the new name into it.
-/

namespace CodeGroom.Strand

variable {s : Strand}

/-- The names of the lexemes in the order that the links give: each name once, and every link to the neighbour in the list. -/
structure Linked (s : Strand) (l : List Nat) : Prop where
  nodup : l.Nodup
  mem_iff : ∀ i, i ∈ l ↔ i < s.size
  first_eq : s.first = l.head?
  last_eq : s.last = l.getLast?
  nextOf_eq : ∀ p i q, l = p ++ i :: q → s.nextOf i = q.head?
  prevOf_eq : ∀ p i q, l = p ++ i :: q → s.prevOf i = p.getLast?

/-- A strand whose links agree with its order. -/
def WellLinked (s : Strand) : Prop := s.Linked s.order

/-- An empty strand has an empty order. -/
theorem linked_empty (language : String) : (empty language).Linked [] where
  nodup := List.nodup_nil
  mem_iff i := by simp [empty, size]
  first_eq := rfl
  last_eq := rfl
  nextOf_eq p i q h := by simp at h
  prevOf_eq p i q h := by simp at h

namespace Linked

variable {l p q : List Nat} {i : Nat}

/-- The order is as long as the strand. -/
theorem length_eq (h : s.Linked l) : l.length = s.size := by
  have hperm : l.Perm (List.range s.size) :=
    (List.perm_ext_iff_of_nodup h.nodup List.nodup_range).2 fun i => by rw [h.mem_iff, List.mem_range]
  rw [hperm.length_eq, List.length_range]

/-- Only lexemes that there are stand in the order. -/
theorem lt_size (h : s.Linked l) (hi : i ∈ l) : i < s.size := (h.mem_iff i).1 hi

/-- Following the links forward runs along the rest of the order. -/
theorem follow_nextOf (h : s.Linked (p ++ q)) {n : Nat} (hn : q.length ≤ n) : follow s.nextOf n q.head? = q := by
  induction q generalizing p n with
  | nil => cases n <;> rfl
  | cons i q ih =>
    cases n with
    | zero => simp at hn
    | succ n =>
      have hlist : p ++ i :: q = (p ++ [i]) ++ q := by simp
      rw [List.head?_cons, follow, h.nextOf_eq p i q rfl, ih (hlist ▸ h) (by simpa using hn)]

/-- Following the links backward runs along the order from the end of its first part. -/
theorem follow_prevOf (h : s.Linked (p ++ q)) {n : Nat} (hn : p.length ≤ n) :
    follow s.prevOf n p.getLast? = p.reverse := by
  induction p using List.reverseRecOn generalizing q n with
  | nil => cases n <;> rfl
  | append_singleton p i ih =>
    cases n with
    | zero => simp at hn
    | succ n =>
      have hlist : p ++ [i] ++ q = p ++ (i :: q) := by simp
      rw [hlist] at h
      rw [List.getLast?_concat, follow, h.prevOf_eq p i q rfl, ih h (by simpa using hn), List.reverse_concat]

/-- There is only one such order. -/
theorem order_eq (h : s.Linked l) : s.order = l := by
  have hfollow := h.follow_nextOf (p := []) (q := l) (Nat.le_of_eq h.length_eq)
  rwa [order, h.first_eq]

/-- A strand linked along some list is well-linked. -/
theorem wellLinked (h : s.Linked l) : s.WellLinked := by
  rwa [WellLinked, h.order_eq]

/-- What is behind a lexeme is the rest of the order. -/
theorem after_eq (h : s.Linked (p ++ i :: q)) : s.after i = q := by
  have hlen := h.length_eq
  have hsplit : s.Linked ((p ++ [i]) ++ q) := by rwa [List.append_assoc, List.singleton_append]
  rw [after, h.nextOf_eq p i q rfl, hsplit.follow_nextOf]
  simp only [List.length_append, List.length_cons] at hlen
  omega

/-- What is between two lexemes is the part of the order between their names. -/
theorem between_eq {m : List Nat} {j : Nat} (h : s.Linked (p ++ i :: (m ++ j :: q))) : s.between (some i) (some j) = m := by
  have hnodup := h.nodup
  have hne : ∀ k ∈ m, decide (some k ≠ some j) = true := by
    intro k hk
    rw [decide_eq_true_eq]
    rintro ⟨rfl⟩
    simp only [List.nodup_append, List.nodup_cons] at hnodup
    exact hnodup.2.1.2.2.2 _ hk _ List.mem_cons_self rfl
  rw [between, ahead, restrict, h.after_eq, List.takeWhile_append_of_pos hne]
  simp

/-- What is in front of a lexeme is the first part of the order, from its end on. -/
theorem before_eq (h : s.Linked (p ++ i :: q)) : s.before i = p.reverse := by
  have hlen := h.length_eq
  rw [before, h.prevOf_eq p i q rfl, h.follow_prevOf]
  simp only [List.length_append, List.length_cons] at hlen
  omega

end Linked

section Fields

/-! What the operations on a strand do to each of its parts. -/

variable {i j new : Nat} {prev next : Option Nat} {f : Lexeme → Lexeme} {x : Lexeme}

/-- A change of a lexeme adds none. -/
@[simp] theorem size_modify : (s.modify i f).size = s.size := by
  simp [modify, size]

@[simp] theorem first_modify : (s.modify i f).first = s.first := rfl

@[simp] theorem last_modify : (s.modify i f).last = s.last := rfl

@[simp] theorem language_modify : (s.modify i f).language = s.language := rfl

/-- A change of a lexeme leaves the links to the next ones. -/
@[simp] theorem nextOf_modify : (s.modify i f).nextOf j = s.nextOf j := by
  simp only [nextOf, modify, Array.getElem?_modify]
  split_ifs with h
  · cases s.cells[j]? <;> rfl
  · rfl

/-- A change of a lexeme leaves the links to the previous ones. -/
@[simp] theorem prevOf_modify : (s.modify i f).prevOf j = s.prevOf j := by
  simp only [prevOf, modify, Array.getElem?_modify]
  split_ifs with h
  · cases s.cells[j]? <;> rfl
  · rfl

/-- A change shows in the lexeme that it is made to. -/
theorem lexeme_modify_self (hi : i < s.size) : (s.modify i f).lexeme (some i) = f (s.lexeme (some i)) := by
  simp [lexeme, modify, Array.getElem?_modify, Array.getElem?_eq_getElem hi]

/-- A change does not show in any other lexeme. -/
theorem lexeme_modify_of_ne (h : j ≠ i) : (s.modify i f).lexeme (some j) = s.lexeme (some j) := by
  simp [lexeme, modify, Array.getElem?_modify, h.symm]

/-- Joining a lexeme to the one in front of it gives that one a new link, and no other one. -/
theorem nextOf_joinLeft (hprev : ∀ p, prev = some p → p < s.size) :
    (s.joinLeft prev new).nextOf j = if prev = some j then some new else s.nextOf j := by
  cases prev with
  | none => rfl
  | some p =>
    have hp : p < s.cells.size := hprev p rfl
    simp only [joinLeft, nextOf, Array.getElem?_modify, Option.some.injEq]
    split_ifs with h
    · subst h
      simp [Array.getElem?_eq_getElem hp]
    · rfl

/-- It leaves the links to the previous ones. -/
@[simp] theorem prevOf_joinLeft : (s.joinLeft prev new).prevOf j = s.prevOf j := by
  cases prev with
  | none => rfl
  | some p =>
    simp only [joinLeft, prevOf, Array.getElem?_modify]
    split_ifs
    · cases s.cells[j]? <;> rfl
    · rfl

/-- Joining a lexeme to the one behind it leaves the links to the next ones. -/
@[simp] theorem nextOf_joinRight : (s.joinRight new next).nextOf j = s.nextOf j := by
  cases next with
  | none => rfl
  | some n =>
    simp only [joinRight, nextOf, Array.getElem?_modify]
    split_ifs
    · cases s.cells[j]? <;> rfl
    · rfl

/-- It gives the one behind it a new link, and no other one. -/
theorem prevOf_joinRight (hnext : ∀ n, next = some n → n < s.size) :
    (s.joinRight new next).prevOf j = if next = some j then some new else s.prevOf j := by
  cases next with
  | none => rfl
  | some n =>
    have hn : n < s.cells.size := hnext n rfl
    simp only [joinRight, prevOf, Array.getElem?_modify, Option.some.injEq]
    split_ifs with h
    · subst h
      simp [Array.getElem?_eq_getElem hn]
    · rfl

/-- Joining adds no lexeme. -/
@[simp] theorem size_joinLeft : (s.joinLeft prev new).size = s.size := by
  cases prev <;> simp [joinLeft, size]

@[simp] theorem size_joinRight : (s.joinRight new next).size = s.size := by
  cases next <;> simp [joinRight, size]

/-- Joining changes no lexeme. -/
@[simp] theorem lexeme_joinLeft (o : Option Nat) : (s.joinLeft prev new).lexeme o = s.lexeme o := by
  cases prev with
  | none => rfl
  | some p =>
    cases o with
    | none => rfl
    | some j =>
      simp only [joinLeft, lexeme, Option.bind_some, Array.getElem?_modify]
      split_ifs
      · cases s.cells[j]? <;> rfl
      · rfl

@[simp] theorem lexeme_joinRight (o : Option Nat) : (s.joinRight new next).lexeme o = s.lexeme o := by
  cases next with
  | none => rfl
  | some n =>
    cases o with
    | none => rfl
    | some j =>
      simp only [joinRight, lexeme, Option.bind_some, Array.getElem?_modify]
      split_ifs
      · cases s.cells[j]? <;> rfl
      · rfl

/-- The strand with a cell that nothing is linked to yet. -/
def pushed (s : Strand) (c : Cell) : Strand := { s with cells := s.cells.push c }

/-- An insertion adds a cell and joins it on both sides. -/
theorem insertBetween_eq : s.insertBetween prev next x =
    ((s.pushed ⟨x, prev, next⟩).joinLeft prev s.size).joinRight s.size next := rfl

@[simp] theorem size_pushed {c : Cell} : (s.pushed c).size = s.size + 1 := by
  simp [pushed, size]

/-- The cell that was added is the last one. -/
theorem getElem?_pushed {c : Cell} : (s.pushed c).cells[j]? = if j = s.size then some c else s.cells[j]? := by
  rw [pushed, Array.getElem?_push]
  rfl

/-- An insertion adds one lexeme. -/
@[simp] theorem size_insertBetween : (s.insertBetween prev next x).size = s.size + 1 := by
  rw [insertBetween_eq, size_joinRight, size_joinLeft, size_pushed]

/-- The lexeme inserted has the next name. -/
theorem lexeme_insertBetween_new : (s.insertBetween prev next x).lexeme (some s.size) = x := by
  rw [insertBetween_eq, lexeme_joinRight, lexeme_joinLeft]
  simp [lexeme, getElem?_pushed]

/-- An insertion leaves the lexemes that there were. -/
theorem lexeme_insertBetween (hj : j < s.size) :
    (s.insertBetween prev next x).lexeme (some j) = s.lexeme (some j) := by
  rw [insertBetween_eq, lexeme_joinRight, lexeme_joinLeft]
  simp [lexeme, getElem?_pushed, Nat.ne_of_lt hj]

/-- A lexeme inserted with nothing in front of it is the first one. -/
theorem first_insertBetween :
    (s.insertBetween prev next x).first = if prev = none then some s.size else s.first := by
  cases prev <;> cases next <;> rfl

/-- A lexeme inserted with nothing behind it is the last one. -/
theorem last_insertBetween :
    (s.insertBetween prev next x).last = if next = none then some s.size else s.last := by
  cases prev <;> cases next <;> rfl

/-- The links to the next ones lead through a lexeme that was inserted. -/
theorem nextOf_insertBetween (hprev : ∀ p, prev = some p → p < s.size) :
    (s.insertBetween prev next x).nextOf j =
      if j = s.size then next else if prev = some j then some s.size else s.nextOf j := by
  have hpushed : ∀ p, prev = some p → p < (s.pushed ⟨x, prev, next⟩).size := fun p hp => by
    rw [size_pushed]
    exact Nat.lt_succ_of_lt (hprev p hp)
  rw [insertBetween_eq, nextOf_joinRight, nextOf_joinLeft hpushed, nextOf, getElem?_pushed]
  by_cases hj : j = s.size
  · have hnew : prev ≠ some j := fun h => Nat.lt_irrefl _ (hj ▸ hprev _ h)
    rw [if_neg hnew, if_pos hj, if_pos hj]
    rfl
  · rw [if_neg hj, if_neg hj, nextOf]

/-- And so do the links to the previous ones. -/
theorem prevOf_insertBetween (hnext : ∀ n, next = some n → n < s.size) :
    (s.insertBetween prev next x).prevOf j =
      if j = s.size then prev else if next = some j then some s.size else s.prevOf j := by
  have hpushed : ∀ n, next = some n → n < ((s.pushed ⟨x, prev, next⟩).joinLeft prev s.size).size := fun n hn => by
    rw [size_joinLeft, size_pushed]
    exact Nat.lt_succ_of_lt (hnext n hn)
  rw [insertBetween_eq, prevOf_joinRight hpushed, prevOf_joinLeft, prevOf, getElem?_pushed]
  by_cases hj : j = s.size
  · have hnew : next ≠ some j := fun h => Nat.lt_irrefl _ (hj ▸ hnext _ h)
    rw [if_neg hnew, if_pos hj, if_pos hj]
    rfl
  · rw [if_neg hj, if_neg hj, prevOf]

end Fields

namespace Linked

variable {l p q : List Nat} {i : Nat} {x : Lexeme}

/-- Changing a lexeme leaves the order. -/
theorem modify (h : s.Linked l) (f : Lexeme → Lexeme) : (s.modify i f).Linked l where
  nodup := h.nodup
  mem_iff j := by rw [h.mem_iff, size_modify]
  first_eq := h.first_eq
  last_eq := h.last_eq
  nextOf_eq p j q hl := by rw [nextOf_modify, h.nextOf_eq p j q hl]
  prevOf_eq p j q hl := by rw [prevOf_modify, h.prevOf_eq p j q hl]

/-- Changing several lexemes leaves the order. -/
theorem modifyAll (h : s.Linked l) (is : List Nat) (f : Lexeme → Lexeme) : (s.modifyAll is f).Linked l := by
  induction is generalizing s with
  | nil => exact h
  | cons i is ih => exact ih (h.modify f)

/-- The next name is not in the order yet. -/
theorem size_notMem (h : s.Linked l) : s.size ∉ l := fun hmem => Nat.lt_irrefl _ (h.lt_size hmem)

/-- A name in a list with a new one is the new one, or stands in front of it or behind it. -/
theorem split_of_append_cons {p q p' q' : List Nat} {i new : Nat} (h : p ++ new :: q = p' ++ i :: q') :
    (p' = p ∧ i = new ∧ q' = q) ∨ (∃ m, p = p' ++ i :: m ∧ q' = m ++ new :: q) ∨
      ∃ m, q = m ++ i :: q' ∧ p' = p ++ new :: m := by
  rcases List.append_eq_append_iff.1 h with ⟨m, hp, hq⟩ | ⟨m, hp, hq⟩
  · cases m with
    | nil =>
      obtain ⟨rfl, rfl⟩ := List.cons.inj hq
      exact .inl ⟨by simpa using hp, rfl, rfl⟩
    | cons y m =>
      obtain ⟨rfl, rfl⟩ := List.cons.inj hq
      exact .inr (.inr ⟨m, rfl, hp⟩)
  · cases m with
    | nil =>
      obtain ⟨rfl, rfl⟩ := List.cons.inj hq
      exact .inl ⟨by simpa using hp.symm, rfl, rfl⟩
    | cons y m =>
      obtain ⟨rfl, rfl⟩ := List.cons.inj hq
      exact .inr (.inl ⟨m, hp, rfl⟩)

/-- A lexeme put between two neighbours takes its place between them. -/
theorem insertBetween (h : s.Linked (p ++ q)) (x : Lexeme) :
    (s.insertBetween p.getLast? q.head? x).Linked (p ++ s.size :: q) := by
  have hnew : s.size ∉ p ++ q := h.size_notMem
  have hp : ∀ i, p.getLast? = some i → i < s.size := fun i hi =>
    h.lt_size (List.mem_append_left _ (List.mem_of_getLast? hi))
  have hq : ∀ i, q.head? = some i → i < s.size := fun i hi =>
    h.lt_size (List.mem_append_right _ (List.mem_of_head? hi))
  have hne : ∀ {i}, i ∈ p ++ q → i ≠ s.size := fun hmem heq => hnew (heq ▸ hmem)
  refine ⟨?_, ?_, ?_, ?_, ?_, ?_⟩
  · exact List.nodup_middle.2 (List.nodup_cons.2 ⟨hnew, h.nodup⟩)
  · intro i
    rw [size_insertBetween, Nat.lt_succ_iff_lt_or_eq, ← h.mem_iff]
    simp only [List.mem_append, List.mem_cons]
    tauto
  · rw [first_insertBetween, h.first_eq]
    cases p <;> simp
  · rw [last_insertBetween, h.last_eq]
    cases q <;> simp
  · intro p' i q' hl
    rw [nextOf_insertBetween hp]
    rcases split_of_append_cons hl with ⟨rfl, rfl, rfl⟩ | ⟨m, rfl, rfl⟩ | ⟨m, rfl, rfl⟩
    · rw [if_pos rfl]
    · -- The lexeme stands in front of the new one, and directly so when nothing is between them.
      rw [if_neg (hne (by simp))]
      cases m using List.reverseRecOn with
      | nil => simp
      | append_singleton m y =>
        have hy : (p' ++ i :: (m ++ [y])).getLast? ≠ some i := by
          have hd := h.nodup
          simp only [List.nodup_append, List.nodup_cons] at hd
          rw [← List.cons_append, ← List.append_assoc, List.getLast?_concat]
          rintro ⟨rfl⟩
          exact hd.1.2.1.1 (by simp)
        rw [if_neg hy, h.nextOf_eq p' i (m ++ [y] ++ q) (by simp)]
        cases m <;> rfl
    · rw [if_neg (hne (by simp)), if_neg, h.nextOf_eq (p ++ m) i q' (by simp)]
      intro hi
      exact (List.disjoint_of_nodup_append h.nodup) (List.mem_of_getLast? hi) (by simp)
  · intro p' i q' hl
    rw [prevOf_insertBetween hq]
    rcases split_of_append_cons hl with ⟨rfl, rfl, rfl⟩ | ⟨m, rfl, rfl⟩ | ⟨m, rfl, rfl⟩
    · rw [if_pos rfl]
    · rw [if_neg (hne (by simp)), if_neg, h.prevOf_eq p' i (m ++ q) (by simp)]
      intro hi
      exact (List.disjoint_of_nodup_append h.nodup) (by simp) (List.mem_of_head? hi)
    · rw [if_neg (hne (by simp))]
      cases m with
      | nil => simp
      | cons y m =>
        have hy : (y :: m ++ i :: q').head? ≠ some i := by
          have hd := (List.nodup_append.1 h.nodup).2.1
          rintro ⟨rfl⟩
          exact (List.nodup_cons.1 hd).1 (by simp)
        rw [if_neg hy, h.prevOf_eq (p ++ y :: m) i q' (by simp)]
        simp [List.getLast?_append, List.getLast?_cons]

/-- A lexeme inserted in front of another one takes its place there. -/
theorem insertBefore (h : s.Linked (p ++ i :: q)) (x : Lexeme) :
    (s.insertBefore (some i) x).Linked (p ++ s.size :: i :: q) := by
  have hinsert := h.insertBetween x
  rwa [← h.prevOf_eq p i q rfl] at hinsert

/-- A lexeme inserted behind another one takes its place there. -/
theorem insertAfter (h : s.Linked (p ++ i :: q)) (x : Lexeme) :
    (s.insertAfter (some i) x).Linked (p ++ i :: s.size :: q) := by
  have hsplit : s.Linked ((p ++ [i]) ++ q) := by rwa [List.append_assoc, List.singleton_append]
  have hinsert := hsplit.insertBetween x
  rwa [List.getLast?_concat, ← h.nextOf_eq p i q rfl, List.append_assoc, List.singleton_append] at hinsert

/-- Appending is inserting behind the last lexeme. -/
theorem append_eq (h : s.Linked l) (x : Lexeme) : s.append x = s.insertBetween l.getLast? none x := by
  rw [Strand.append, h.last_eq]
  cases l using List.reverseRecOn with
  | nil => rfl
  | append_singleton l i =>
    rw [List.getLast?_concat]
    show s.insertBetween (some i) (s.nextOf i) x = _
    rw [h.nextOf_eq l i [] rfl]
    rfl

/-- An appended lexeme is the last one of the order. -/
theorem append (h : s.Linked l) (x : Lexeme) : (s.append x).Linked (l ++ [s.size]) := by
  rw [h.append_eq]
  have hsplit : s.Linked (l ++ []) := by rwa [List.append_nil]
  exact hsplit.insertBetween x

end Linked

/-- The strand of some lexemes is well-linked. -/
theorem wellLinked_ofLexemes (language : String) (xs : List Lexeme) : (ofLexemes language xs).WellLinked := by
  induction xs using List.reverseRecOn with
  | nil => exact (linked_empty language).wellLinked
  | append_singleton xs x ih =>
    rw [ofLexemes, List.foldl_concat]
    exact (ih.append x).wellLinked

/-- The strand of some lexemes holds them in their order. -/
theorem map_lexeme_order_ofLexemes (language : String) (xs : List Lexeme) :
    (ofLexemes language xs).order.map (fun i => (ofLexemes language xs).lexeme (some i)) = xs := by
  induction xs using List.reverseRecOn with
  | nil => rfl
  | append_singleton xs x ih =>
    have hlinked := wellLinked_ofLexemes language xs
    have hnew : ofLexemes language (xs ++ [x]) = (ofLexemes language xs).append x := by
      rw [ofLexemes, List.foldl_concat, ← ofLexemes]
    rw [hnew, (hlinked.append x).order_eq, List.map_append, hlinked.append_eq]
    have hold : (ofLexemes language xs).order.map
        (fun i => ((ofLexemes language xs).insertBetween (ofLexemes language xs).order.getLast? none x).lexeme (some i)) =
        (ofLexemes language xs).order.map (fun i => (ofLexemes language xs).lexeme (some i)) :=
      List.map_congr_left fun i hi => lexeme_insertBetween (hlinked.lt_size hi)
    rw [hold, ih, List.map_singleton, lexeme_insertBetween_new]

/-- The strand of some lexemes holds as many. -/
theorem size_ofLexemes (language : String) (xs : List Lexeme) : (ofLexemes language xs).size = xs.length := by
  have hlength := congrArg List.length (map_lexeme_order_ofLexemes language xs)
  rwa [List.length_map, (wellLinked_ofLexemes language xs).length_eq] at hlength

/-- Lexemes are named by their places. -/
theorem order_ofLexemes (language : String) (xs : List Lexeme) : (ofLexemes language xs).order = List.range xs.length := by
  induction xs using List.reverseRecOn with
  | nil => rfl
  | append_singleton xs x ih =>
    have hlinked := wellLinked_ofLexemes language xs
    rw [ofLexemes, List.foldl_concat, ← ofLexemes, (hlinked.append x).order_eq, ih, size_ofLexemes, List.length_append,
      List.length_singleton, List.range_succ]

/-- The lexeme with a name is the one at that place. -/
theorem lexeme_ofLexemes (language : String) {xs : List Lexeme} {i : Nat} (h : i < xs.length) :
    (ofLexemes language xs).lexeme (some i) = xs[i] := by
  have hget := congrArg (·[i]?) (map_lexeme_order_ofLexemes language xs)
  simp only [order_ofLexemes, List.getElem?_map, List.getElem?_range h, List.getElem?_eq_getElem h, Option.map_some] at hget
  exact Option.some.inj hget

end CodeGroom.Strand
