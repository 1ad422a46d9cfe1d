import CodeGroom.Proofs.Grouping.Forward
import CodeGroom.Proofs.Strand.Blocks
import Mathlib.Data.List.TakeWhile

/-!
# Pairs keep strands level and blockwise

A pair of parentheses put into a level strand keeps it level, since what gets deeper starts behind one of them and ends in front of
the other one, or at the end of the strand. It keeps a strand blockwise, since each of the two stands in the braces of the code that
it touches. So a run keeps strands level and blockwise.
-/

namespace CodeGroom

namespace Strand

variable {s : Strand} {es : List Entry}

/-- Deepening what stands between two lexemes where depths may change keeps a strand level, also if the second one does not come
and all behind the first one gets deeper. -/
theorem Lists.level_deepen {o w : Entry} (h : s.Lists es) (hlevel : s.Level) (ho : o ∈ es) (hw : w ∈ es)
    (hoturns : o.lexeme.kind.turns = true) (hwturns : w.lexeme.kind.turns = true) :
    (s.modifyAll (s.between (some o.name) (some w.name)) Grouping.deepen).Level := by
  obtain ⟨p, q, rfl⟩ := List.append_of_mem ho
  have hparts := h.level_iff.1 hlevel
  rw [Entry.lexemes_append, Entry.lexemes_cons, Lexeme.level_turning hoturns] at hparts
  have hdeep : ∀ m : List Entry, Lexeme.Level (Entry.lexemes m) →
      Lexeme.Level (Entry.lexemes (m.map (Entry.change Grouping.deepen))) := by
    intro m hm
    have hmap := hm.map (f := Grouping.deepen) (fun _ => rfl) fun x y hxy => congrArg (· + 1) hxy
    simpa [Entry.lexemes, Entry.change, Function.comp_def] using hmap
  by_cases hwq : w ∈ q
  · obtain ⟨m, q, rfl⟩ := List.append_of_mem hwq
    have hrest := hparts.2
    rw [Entry.lexemes_append, Entry.lexemes_cons, Lexeme.level_turning hwturns] at hrest
    have hlists : (s.modifyAll (Entry.names m) Grouping.deepen).Lists
        ((p ++ [o]) ++ m.map (Entry.change Grouping.deepen) ++ w :: q) :=
      Lists.modifyAll_change (by simpa using h) fun _ => rfl
    rw [h.between_eq, hlists.level_iff]
    simp only [List.append_assoc, List.singleton_append, Entry.lexemes_append, Entry.lexemes_cons]
    exact (Lexeme.level_turning hoturns).2 ⟨hparts.1, (Lexeme.level_turning hwturns).2 ⟨hdeep m hrest.1, hrest.2⟩⟩
  · have hall : s.between (some o.name) (some w.name) = Entry.names q := by
      rw [between, ahead, restrict, h.after_eq, List.takeWhile_eq_self_iff]
      intro j hj
      obtain ⟨x, hx, rfl⟩ := List.mem_map.1 hj
      rw [decide_eq_true_eq]
      intro heq
      have hxw : x = w := h.name_injOn (by simp [hx]) hw (Option.some.inj heq)
      exact hwq (hxw ▸ hx)
    have hlists : (s.modifyAll (Entry.names q) Grouping.deepen).Lists
        ((p ++ [o]) ++ q.map (Entry.change Grouping.deepen) ++ []) :=
      Lists.modifyAll_change (by simpa using h) fun _ => rfl
    rw [hall, hlists.level_iff]
    simp only [List.append_assoc, List.singleton_append, List.append_nil, Entry.lexemes_append, Entry.lexemes_cons]
    exact (Lexeme.level_turning hoturns).2 ⟨hparts.1, hdeep q hparts.2⟩

/-- A pair of parentheses in front of one lexeme and behind another one keeps a strand level. -/
theorem Level.enclosedAt {x y : Nat} {last : Option Nat} (h : s.Level) (hs : s.WellLinked) (hx : x ∈ s.order)
    (hlast : (Grouping.openAt s (some x)).prev .layout .sameSide last = some y)
    (hy : y ∈ (Grouping.openAt s (some x)).order) : (Grouping.enclosedAt s (some x) last).Level := by
  obtain ⟨p, e, q, hlists, rfl⟩ := hs.exists_split hx
  obtain ⟨t, ht⟩ : ∃ t, t = Grouping.openAt s (some e.name) := ⟨_, rfl⟩
  obtain ⟨o, ho⟩ : ∃ o : Entry, o = ⟨s.size, (Grouping.openingBefore e.lexeme).bare⟩ := ⟨_, rfl⟩
  rw [← ht] at hlast hy
  have hoturns : o.lexeme.kind.turns = true := by rw [ho]; rfl
  have hopened : t.Lists (p ++ o :: e :: q) := ht ▸ ho ▸ Grouping.lists_openAt hlists
  have htlevel : t.Level := by
    have hlevel := hlists.level_iff.1 h
    rw [Entry.lexemes_append] at hlevel
    rw [hopened.level_iff, Entry.lexemes_append]
    exact hlevel.insert hoturns
  rw [hopened.order_eq] at hy
  obtain ⟨w, hw, rfl⟩ := List.mem_map.1 hy
  obtain ⟨p', q', hsplit⟩ := List.append_of_mem hw
  obtain ⟨z, hz⟩ : ∃ z : Entry, z = ⟨t.size, (Grouping.closingAfter w.lexeme).bare⟩ := ⟨_, rfl⟩
  have hzturns : z.lexeme.kind.turns = true := by rw [hz]; rfl
  have hclosed : (Grouping.closeAt t (some w.name)).Lists (p' ++ w :: z :: q') := hz ▸ Grouping.lists_closeAt (hsplit ▸ hopened)
  have hulevel : (Grouping.closeAt t (some w.name)).Level := by
    have hlevel := hopened.level_iff.1 htlevel
    rw [hsplit, ← List.singleton_append, ← List.append_assoc, Entry.lexemes_append] at hlevel
    rw [hclosed.level_iff, ← List.singleton_append, ← List.append_assoc, Entry.lexemes_append]
    exact hlevel.insert hzturns
  have homem : o ∈ p' ++ w :: z :: q' := by
    have hmem : o ∈ p' ++ w :: q' := hsplit ▸ by simp
    exact (((List.sublist_cons_self z q').cons_cons w).append_left p').subset hmem
  have hdeep := hclosed.level_deepen hulevel homem (by simp) hoturns hzturns
  rw [ho, hz] at hdeep
  rw [Grouping.enclosedAt, ← ht, hlast]
  exact hdeep

/-- A pair of parentheses in front of one lexeme and behind another one keeps a strand blockwise. -/
theorem Blockwise.enclosedAt {x y : Nat} {last : Option Nat} (h : s.Blockwise) (hs : s.WellLinked) (hx : x ∈ s.order)
    (hlast : (Grouping.openAt s (some x)).prev .layout .sameSide last = some y)
    (hy : y ∈ (Grouping.openAt s (some x)).order) : (Grouping.enclosedAt s (some x) last).Blockwise := by
  obtain ⟨p, e, q, hlists, rfl⟩ := hs.exists_split hx
  obtain ⟨t, ht⟩ : ∃ t, t = Grouping.openAt s (some e.name) := ⟨_, rfl⟩
  obtain ⟨o, ho⟩ : ∃ o : Entry, o = ⟨s.size, (Grouping.openingBefore e.lexeme).bare⟩ := ⟨_, rfl⟩
  rw [← ht] at hlast hy
  have holeaves : o.lexeme.kind.leavesBlock = true := by rw [ho]; rfl
  have hobraces : o.lexeme.braceDepth = e.lexeme.braceDepth := by rw [ho]; rfl
  have hopened : t.Lists (p ++ o :: e :: q) := ht ▸ ho ▸ Grouping.lists_openAt hlists
  have htblocks : Lexeme.Blockwise (Entry.lexemes (p ++ o :: e :: q)) := by
    have hblocks := hlists.blockwise_iff.1 h
    rw [Entry.lexemes_append] at hblocks ⊢
    refine hblocks.insert holeaves fun z hz _ => ?_
    obtain rfl : e.lexeme = z := Option.some.inj hz
    exact Int.le_of_eq hobraces
  rw [hopened.order_eq] at hy
  obtain ⟨w, hw, rfl⟩ := List.mem_map.1 hy
  obtain ⟨p', q', hsplit⟩ := List.append_of_mem hw
  obtain ⟨z, hz⟩ : ∃ z : Entry, z = ⟨t.size, (Grouping.closingAfter w.lexeme).bare⟩ := ⟨_, rfl⟩
  have hzleaves : z.lexeme.kind.leavesBlock = true := by rw [hz]; rfl
  have hzbraces : z.lexeme.braceDepth = w.lexeme.braceDepth := by rw [hz]; rfl
  have hclosed : (Grouping.closeAt t (some w.name)).Lists (p' ++ w :: z :: q') := hz ▸ Grouping.lists_closeAt (hsplit ▸ hopened)
  have hublocks : (Grouping.closeAt t (some w.name)).Blockwise := by
    rw [hsplit, ← List.singleton_append, ← List.append_assoc, Entry.lexemes_append] at htblocks
    rw [hclosed.blockwise_iff, ← List.singleton_append, ← List.append_assoc, Entry.lexemes_append]
    refine htblocks.insert hzleaves fun y hy hk => ?_
    -- What follows the new parenthesis followed the lexeme that it touches.
    have hnext := (List.isChain_append.1 htblocks).2.2 w.lexeme (by simp [Entry.lexemes]) y hy
    rw [hzbraces]
    exact hnext.le hk
  have hdeep := hublocks.modifyAll (f := Grouping.deepen) (fun _ => rfl) (fun _ => rfl)
    ((Grouping.closeAt t (some w.name)).between (some s.size) (some t.size))
  rw [Grouping.enclosedAt, ← ht, hlast]
  exact hdeep

end Strand

namespace Grouping

variable {s t : Strand}

theorem Enclosings.level (h : Enclosings s t) (hs : s.Level) : t.Level := by
  induction h with
  | refl => exact hs
  | tail _ hpair ih =>
    obtain ⟨hlinked, hx, hlast, hy⟩ := hpair
    exact ih.enclosedAt hlinked hx hlast hy

theorem Enclosings.blockwise (h : Enclosings s t) (hs : s.Blockwise) : t.Blockwise := by
  induction h with
  | refl => exact hs
  | tail _ hpair ih =>
    obtain ⟨hlinked, hx, hlast, hy⟩ := hpair
    exact ih.enclosedAt hlinked hx hlast hy

/-- Whether brackets match or not, a run keeps a strand well-linked and level. -/
theorem level_run (st : Style) (g : Grouping) (hlinked : g.strand.WellLinked) (horderly : Orderly g.strand.rows)
    (hpairs : g.pairs = []) (hlevel : g.strand.Level) : (g.run st).strand.WellLinked ∧ (g.run st).strand.Level := by
  obtain ⟨es, hes⟩ := exists_showing_run st g hlinked horderly hpairs
  exact ⟨hes.shows.linked.wellLinked, hes.enclosings.level hlevel⟩

/-- Whether brackets match or not, a run keeps a strand blockwise. -/
theorem blockwise_run (st : Style) (g : Grouping) (hlinked : g.strand.WellLinked) (horderly : Orderly g.strand.rows)
    (hpairs : g.pairs = []) (hblocks : g.strand.Blockwise) : (g.run st).strand.Blockwise := by
  obtain ⟨es, hes⟩ := exists_showing_run st g hlinked horderly hpairs
  exact hes.enclosings.blockwise hblocks

end Grouping

end CodeGroom
