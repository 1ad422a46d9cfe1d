import CodeGroom.Proofs.Strand.Order

/-!
# Strands built by splices

A strand grows by splices: a lexeme is put at its end, or right behind or right in front of a lexeme that it holds. However many
splices made it, the links lead from the first lexeme once over every lexeme to the last one and back the same way. A splice puts
the new lexeme where it says and leaves the others as they are.
-/

namespace CodeGroom.Strand

/-- A walk from a lexeme by links until there is no further link, with the lexemes that it passes. -/
inductive Walk (step : Nat → Option Nat) : Option Nat → List Nat → Prop
  | done : Walk step none []
  | onward (i : Nat) {l : List Nat} : Walk step (step i) l → Walk step (some i) (i :: l)

/-- One way to put a new lexeme into a strand. -/
inductive Splice where
  | atEnd (x : Lexeme)
  | behind (i : Nat) (x : Lexeme)
  | inFront (i : Nat) (x : Lexeme)
deriving DecidableEq, Repr

namespace Splice

/-- The lexeme that a splice adds. -/
def lexeme : Splice → Lexeme
  | atEnd x | behind _ x | inFront _ x => x

/-- Whether the neighbour that a splice names is in the strand. -/
def Fits (s : Strand) : Splice → Prop
  | atEnd _ => True
  | behind i _ | inFront i _ => i < s.size

instance (s : Strand) (o : Splice) : Decidable (o.Fits s) :=
  match o with
  | atEnd _ => inferInstanceAs (Decidable True)
  | behind i _ | inFront i _ => inferInstanceAs (Decidable (i < s.size))

/-- Where a splice puts the new name in the order: the names around it stay as they were. -/
inductive Puts (new : Nat) : Splice → List Nat → List Nat → Prop
  | atEnd (x : Lexeme) (l : List Nat) : Puts new (.atEnd x) l (l ++ [new])
  | behind (i : Nat) (x : Lexeme) (p q : List Nat) : Puts new (.behind i x) (p ++ i :: q) (p ++ i :: new :: q)
  | inFront (i : Nat) (x : Lexeme) (p q : List Nat) : Puts new (.inFront i x) (p ++ i :: q) (p ++ new :: i :: q)

end Splice

/-- The strand after a splice. -/
def splice (s : Strand) : Splice → Strand
  | .atEnd x => s.append x
  | .behind i x => s.insertAfter (some i) x
  | .inFront i x => s.insertBefore (some i) x

/-- The strands that splices at lexemes of the strand make from the empty one. -/
inductive Spliced (language : String) : Strand → Prop
  | empty : Spliced language (.empty language)
  | splice {s : Strand} (o : Splice) : Spliced language s → o.Fits s → Spliced language (s.splice o)

/-- The links pass every lexeme once on the way from the first to the last, and the same lexemes on the way back. Only a strand
without lexemes has no first lexeme and no last one. -/
structure Threaded (s : Strand) (l : List Nat) : Prop where
  forward : Walk s.nextOf s.first l
  backward : Walk s.prevOf s.last l.reverse
  once : l.Nodup
  every : ∀ i, i ∈ l ↔ i < s.size
  ends : s.last = l.getLast?
  first_none : s.first = none ↔ s.size = 0
  last_none : s.last = none ↔ s.size = 0

variable {language : String} {s : Strand} {l p q : List Nat}

namespace Linked

theorem walk_nextOf (h : s.Linked (p ++ q)) : Walk s.nextOf q.head? q := by
  induction q generalizing p with
  | nil => exact .done
  | cons i q ih =>
    have hlist : p ++ i :: q = (p ++ [i]) ++ q := by simp
    have hrest : Walk s.nextOf q.head? q := ih (hlist ▸ h)
    rw [← h.nextOf_eq p i q rfl] at hrest
    exact .onward i hrest

theorem walk_prevOf (h : s.Linked (p ++ q)) : Walk s.prevOf p.getLast? p.reverse := by
  induction p using List.reverseRecOn generalizing q with
  | nil => exact .done
  | append_singleton p i ih =>
    have hlist : p ++ [i] ++ q = p ++ i :: q := by simp
    have hsplit : s.Linked (p ++ i :: q) := hlist ▸ h
    have hrest : Walk s.prevOf p.getLast? p.reverse := ih hsplit
    rw [← hsplit.prevOf_eq p i q rfl] at hrest
    rw [List.getLast?_concat, List.reverse_concat]
    exact .onward i hrest

theorem eq_nil_iff (h : s.Linked l) : l = [] ↔ s.size = 0 := by
  rw [← List.length_eq_zero_iff, h.length_eq]

/-- Links that agree with an order pass it forward and back. -/
theorem threaded (h : s.Linked l) : s.Threaded l where
  forward := by
    rw [h.first_eq]
    exact walk_nextOf (p := []) h
  backward := by
    rw [h.last_eq]
    exact walk_prevOf (q := []) ((List.append_nil l).symm ▸ h)
  once := h.nodup
  every := h.mem_iff
  ends := h.last_eq
  first_none := by rw [h.first_eq, List.head?_eq_none_iff, h.eq_nil_iff]
  last_none := by rw [h.last_eq, List.getLast?_eq_none_iff, h.eq_nil_iff]

/-- A splice at a lexeme of the strand puts the new name beside it and keeps the links in agreement with the order. -/
theorem splice (h : s.Linked l) {o : Splice} (ho : o.Fits s) : ∃ l', o.Puts s.size l l' ∧ (s.splice o).Linked l' := by
  cases o with
  | atEnd x => exact ⟨_, .atEnd x l, h.append x⟩
  | behind i x =>
    obtain ⟨p, q, rfl⟩ := List.append_of_mem ((h.mem_iff i).2 ho)
    exact ⟨_, .behind i x p q, h.insertAfter x⟩
  | inFront i x =>
    obtain ⟨p, q, rfl⟩ := List.append_of_mem ((h.mem_iff i).2 ho)
    exact ⟨_, .inFront i x p q, h.insertBefore x⟩

end Linked

/-- Every splice on a linked strand stores the new lexeme between two neighbours. -/
theorem splice_eq_insertBetween (h : s.Linked l) (o : Splice) :
    ∃ prev next, s.splice o = s.insertBetween prev next o.lexeme := by
  cases o with
  | atEnd x => exact ⟨_, _, h.append_eq x⟩
  | behind i x => exact ⟨some i, s.nextOf i, rfl⟩
  | inFront i x => exact ⟨s.prevOf i, some i, rfl⟩

/-- Splices keep the links in agreement with the order. -/
theorem Spliced.linked (h : Spliced language s) : s.Linked s.order := by
  induction h with
  | empty => exact (linked_empty language).wellLinked
  | splice o _ ho ih =>
    obtain ⟨l', -, hlinked⟩ := ih.splice ho
    exact hlinked.wellLinked

/-- The links of a strand made by splices lead once over all its lexemes, forward and back. A further splice puts its lexeme
right behind the named one, right in front of it or at the end, keeps the order of the others and changes none of them. -/
theorem Spliced.threaded_splice (h : Spliced language s) :
    s.Threaded s.order ∧
      ∀ o : Splice, o.Fits s →
        (s.splice o).Threaded (s.splice o).order ∧ o.Puts s.size s.order (s.splice o).order ∧
          (s.splice o).size = s.size + 1 ∧ (s.splice o).lexeme (some s.size) = o.lexeme ∧
            ∀ j < s.size, (s.splice o).lexeme (some j) = s.lexeme (some j) := by
  have hlinked := h.linked
  refine ⟨hlinked.threaded, fun o ho => ?_⟩
  obtain ⟨l', hputs, hlinked'⟩ := hlinked.splice ho
  obtain ⟨prev, next, heq⟩ := splice_eq_insertBetween hlinked o
  rw [hlinked'.order_eq]
  refine ⟨hlinked'.threaded, hputs, ?_, ?_, fun j hj => ?_⟩
  · rw [heq, size_insertBetween]
  · rw [heq, lexeme_insertBetween_new]
  · rw [heq, lexeme_insertBetween hj]

namespace SplicesAux

/-- A word. -/
def wordNamed (c : Char) : Lexeme := { kind := .word, text := [c] }

/-- A strand of the words `a`, `b`, `c`, created in the order `b`, `c`, `a`. -/
def threeWords : Strand :=
  (((empty "c").splice (.atEnd (wordNamed 'b'))).splice (.behind 0 (wordNamed 'c'))).splice (.inFront 0 (wordNamed 'a'))

theorem spliced_threeWords : Spliced "c" threeWords := by
  refine .splice _ (.splice _ (.splice _ .empty ?_) ?_) ?_
  · exact trivial
  · show 0 < _
    decide
  · show 0 < _
    decide

end SplicesAux

open SplicesAux in
/-- A strand spliced at its end, behind and in front, where `a` is created last and stands first. A word behind `a` comes second. -/
theorem threaded_threeWords :
    threeWords.Threaded [2, 0, 1] ∧
      (threeWords.splice (.behind 2 (wordNamed 'd'))).Threaded [2, 3, 0, 1] ∧
        (threeWords.splice (.behind 2 (wordNamed 'd'))).lexeme (some 2) = threeWords.lexeme (some 2) := by
  obtain ⟨hthree, hsplice⟩ := spliced_threeWords.threaded_splice
  obtain ⟨hfour, -, -, -, hkept⟩ := hsplice (.behind 2 (wordNamed 'd')) (by decide)
  exact ⟨hthree, hfour, hkept 2 (by decide)⟩

end CodeGroom.Strand
