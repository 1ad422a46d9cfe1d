import CodeGroom.Proofs.Strand.Level

/-!
# Blockwise strands

In a blockwise strand a block of braces is left at brackets and directives only: any other lexeme stands at least as deep in braces as
the lexeme before it, and just as deep if that one is neither a bracket nor a directive.
-/

namespace CodeGroom

/-- Whether a lexeme of the kind may stand in another block than the lexemes around it. -/
def Kind.leavesBlock (k : Kind) : Bool := k.isBracket || k = .directive

namespace Lexeme

/-- The second one of two neighbours leaves no block, unless its kind allows it. -/
structure StaysIn (x y : Lexeme) : Prop where
  le : y.kind.leavesBlock = false → x.braceDepth ≤ y.braceDepth
  eq : x.kind.leavesBlock = false → y.kind.leavesBlock = false → x.braceDepth = y.braceDepth

/-- Along some lexemes blocks are left only where they may be. -/
def Blockwise (xs : List Lexeme) : Prop := xs.IsChain StaysIn

variable {xs ys : List Lexeme} {x y z : Lexeme}

/-- A lexeme that may leave a block may follow any other one. -/
theorem staysIn_of_leaves (h : y.kind.leavesBlock = true) (x : Lexeme) : x.StaysIn y := by
  refine ⟨fun h' => ?_, fun _ h' => ?_⟩ <;>
  · rw [h] at h'
    cases h'

/-- A bracket that takes its braces from one of its neighbours can be put between them. -/
theorem Blockwise.insert (h : Blockwise (xs ++ ys)) (hx : x.kind.leavesBlock = true)
    (hnext : ∀ y, ys.head? = some y → y.kind.leavesBlock = false → x.braceDepth ≤ y.braceDepth) : Blockwise (xs ++ x :: ys) := by
  obtain ⟨hxs, hys, -⟩ := List.isChain_append.1 h
  refine List.isChain_append.2 ⟨hxs, List.isChain_cons.2 ⟨fun y hy => ⟨hnext y hy, fun hx' => ?_⟩, hys⟩, fun y _ z hz => ?_⟩
  · rw [hx] at hx'
    cases hx'
  · obtain rfl := Option.some.inj hz
    exact staysIn_of_leaves hx y

end Lexeme

namespace Strand

/-- The blocks of a strand are left only where they may be. -/
def Blockwise (s : Strand) : Prop := Lexeme.Blockwise s.lexemes

variable {s : Strand} {es : List Entry}

/-- Columns play no part in blocks. -/
theorem Lists.blockwise_iff (h : s.Lists es) : s.Blockwise ↔ Lexeme.Blockwise (Entry.lexemes es) := by
  have hbare : Entry.lexemes es = s.lexemes.map Lexeme.bare := by
    rw [← h.entries_eq, BracketAux.lexemes_entries]
  have hiff : ∀ x y : Lexeme, Lexeme.StaysIn x.bare y.bare ↔ Lexeme.StaysIn x y := fun x y =>
    ⟨fun h => ⟨h.le, h.eq⟩, fun h => ⟨h.le, h.eq⟩⟩
  rw [Blockwise, hbare, Lexeme.Blockwise, Lexeme.Blockwise, List.isChain_map]
  simp only [hiff]

/-- Neighbours of a blockwise strand. -/
theorem Blockwise.staysIn {p q : List Nat} {i j : Nat} (h : s.Blockwise) (hs : s.Linked (p ++ i :: j :: q)) :
    (s.lexeme (some i)).StaysIn (s.lexeme (some j)) := by
  rw [Blockwise, lexemes, hs.order_eq, List.map_append] at h
  exact (List.isChain_cons_cons.1 (List.isChain_append.1 h).2.1).1

/-- Changing lexemes without their kinds and braces keeps a strand blockwise. -/
theorem Blockwise.modifyAll {f : Lexeme → Lexeme} (h : s.Blockwise) (hkind : ∀ x, (f x).kind = x.kind)
    (hbraces : ∀ x, (f x).braceDepth = x.braceDepth) (is : List Nat) : (s.modifyAll is f).Blockwise := by
  refine List.foldlRecOn is _ h fun s h i _ => ?_
  have horder : (s.modify i f).order = s.order := by
    have hnext : (s.modify i f).nextOf = s.nextOf := funext fun _ => nextOf_modify
    rw [order, order, hnext, size_modify, first_modify]
  have hsame : ∀ j, ((s.modify i f).lexeme (some j)).kind = (s.lexeme (some j)).kind ∧
      ((s.modify i f).lexeme (some j)).braceDepth = (s.lexeme (some j)).braceDepth := fun j => by
    by_cases hj : j = i
    · subst hj
      by_cases hlt : j < s.size
      · rw [lexeme_modify_self hlt]
        exact ⟨hkind _, hbraces _⟩
      · have hnone : s.cells[j]? = none := Array.getElem?_eq_none (Nat.not_lt.1 hlt)
        simp [lexeme, Strand.modify, Array.getElem?_modify, hnone]
    · rw [lexeme_modify_of_ne hj]
      exact ⟨rfl, rfl⟩
  rw [Blockwise, Lexeme.Blockwise, lexemes, List.isChain_map] at h ⊢
  rw [horder]
  refine h.imp fun j k hjk => ⟨fun hk => ?_, fun hj hk => ?_⟩
  · rw [(hsame k).1] at hk
    rw [(hsame j).2, (hsame k).2]
    exact hjk.le hk
  · rw [(hsame j).1] at hj
    rw [(hsame k).1] at hk
    rw [(hsame j).2, (hsame k).2]
    exact hjk.eq hj hk

/-- Where no block may be left from one lexeme to another one, they stand in one block. -/
theorem Blockwise.braceDepth_eq {p m q : List Nat} {i j : Nat} (h : s.Blockwise) (hs : s.Linked (p ++ (m ++ q)))
    (hm : ∀ x ∈ m, (s.lexeme (some x)).kind.leavesBlock = false) (hi : m.head? = some i) (hj : m.getLast? = some j) :
    (s.lexeme (some i)).braceDepth = (s.lexeme (some j)).braceDepth :=
  ends_eq (c := fun x => x.kind.leavesBlock = false) (fun _ _ hxy => hxy.eq) h hs hm hi hj

end Strand

end CodeGroom
