import CodeGroom.Proofs.Grouping.Countdown
import CodeGroom.Proofs.Strand.Rows
import Mathlib.Data.List.Chain

/-!
# Parentheses between old lexemes

A scan of code whose brackets do not match meets parentheses that it has inserted, and inserts others around them. Between two
neighbouring lexemes that were there before it, its parentheses still keep an order: the opening ones come first. An opening one is
put behind an old lexeme or behind an opening one, and a closing one in front of anything else. So whatever a scan inserts, it comes
nearer to its end with each step: there are fewer old lexemes ahead, or fewer opening parentheses in front of the first of these,
or fewer lexemes at all.
-/

namespace CodeGroom

/-- What of an entry matters here. -/
structure Card where
  name : Nat
  kind : Kind
  inDirective : Bool
deriving DecidableEq, Repr

namespace Entry

/-- What of the entry matters here. -/
def card (e : Entry) : Card := ⟨e.name, e.kind, e.inDirective⟩

/-- A listing without its layout. -/
def cards (es : List Entry) : List Card := (es.filter (!·.isLayout)).map card

variable {es es' p q : List Entry} {e : Entry}

@[simp] theorem cards_append (es es' : List Entry) : cards (es ++ es') = cards es ++ cards es' := by
  simp [cards]

/-- Code has a card. -/
@[simp] theorem cards_code (es : List Entry) (h : e.isLayout = false) : cards (e :: es) = e.card :: cards es := by
  simp [cards, h]

/-- Layout has none. -/
theorem cards_eq_nil (h : ∀ e ∈ es, e.isLayout = true) : cards es = [] := by
  have hnone : es.filter (!·.isLayout) = [] := List.filter_eq_nil_iff.2 fun e he => by simp [h e he]
  rw [cards, hnone, List.map_nil]

/-- A card is that of some code. -/
theorem mem_cards {x : Card} (h : x ∈ cards es) : ∃ e ∈ es, e.isLayout = false ∧ e.card = x := by
  obtain ⟨e, he, rfl⟩ := List.mem_map.1 h
  obtain ⟨hmem, hcode⟩ := List.mem_filter.1 he
  exact ⟨e, hmem, by simpa using hcode, rfl⟩

/-- The card of code is there. -/
theorem card_mem_cards (he : e ∈ es) (hcode : e.isLayout = false) : e.card ∈ cards es :=
  List.mem_map_of_mem (List.mem_filter.2 ⟨he, by simp [hcode]⟩)

/-- Shifting a line changes none of this. -/
theorem cards_shiftLine (n : Int) (es : List Entry) : cards (shiftLine n es) = cards es := by
  obtain ⟨m, q, rfl, hshift, -⟩ := exists_shiftLine n es
  rw [hshift, cards_append, cards_append, cards, List.filter_map, List.map_map]
  rfl

theorem length_cards_le (es : List Entry) : (cards es).length ≤ es.length := by
  rw [cards, List.length_map]
  exact List.length_filter_le _ _

/-- No two cards have the same name. -/
theorem nodup_cards (h : (names es).Nodup) : ((cards es).map (·.name)).Nodup := by
  rw [cards, List.map_map]
  exact h.sublist (List.filter_sublist.map _)

end Entry

namespace Card

/-- The parenthesis is an opening one that was inserted outside directives, when the names from `n` on are new. -/
def opens (n : Nat) (x : Card) : Bool := n ≤ x.name && x.kind = .opening .paren && !x.inDirective

variable {n : Nat} {x y z o c : Card} {l p q : List Card}

/-- When a card is that of a new opening parenthesis outside directives. -/
theorem opens_iff : x.opens n = true ↔ n ≤ x.name ∧ x.kind = .opening .paren ∧ x.inDirective = false := by
  simp [opens, and_assoc]

/-- What may stand next to each other: a new opening parenthesis outside directives behind an old lexeme or another one of its
kind, and behind a new opening parenthesis in a directive only more of that directive. -/
structure Neat (n : Nat) (x y : Card) : Prop where
  opens : y.opens n = true → x.name < n ∨ x.opens n = true
  directive : n ≤ x.name → x.kind = .opening .paren → x.inDirective = true → y.inDirective = true

/-- The new lexemes are parentheses, each neatly next to the others, and closing ones stand outside directives. -/
structure Tidy (n : Nat) (l : List Card) : Prop where
  neat : l.IsChain (Neat n)
  paren : ∀ x ∈ l, n ≤ x.name → x.kind = .opening .paren ∨ x.kind = .closing .paren ∧ x.inDirective = false

/-- The second list has new lexemes beyond those of the first one. -/
structure Grows (n : Nat) (l l' : List Card) : Prop where
  sublist : l.Sublist l'
  old : l'.countP (·.name < n) = l.countP (·.name < n)

theorem Grows.refl (l : List Card) : Grows n l l := ⟨.refl l, rfl⟩

theorem Grows.trans {l' l'' : List Card} (h : Grows n l l') (h' : Grows n l' l'') : Grows n l l'' :=
  ⟨h.sublist.trans h'.sublist, h'.old.trans h.old⟩

/-- Where everything is old everything is tidy. -/
theorem tidy_of_lt (h : ∀ x ∈ l, x.name < n) : Tidy n l := by
  refine ⟨(List.pairwise_of_forall_mem_list fun x hx y hy => ?_).isChain, fun x hx hnew => absurd (h x hx) (Nat.not_lt.2 hnew)⟩
  exact ⟨fun _ => .inl (h x hx), fun hnew => absurd (h x hx) (Nat.not_lt.2 hnew)⟩

/-- How far a walk along some lexemes has to go. -/
def distance (n : Nat) (l : List Card) : Distance where
  old := l.countP (·.name < n)
  opened := (l.takeWhile (n ≤ ·.name)).countP (·.opens n)
  all := l.length

/-- No part of the distance is longer than the list. -/
theorem distance_within (n : Nat) {k : Nat} (h : l.length ≤ k) : (distance n l).Within k := by
  refine ⟨?_, ?_, h⟩
  · exact (List.countP_le_length).trans h
  · exact (List.countP_le_length.trans (List.takeWhile_sublist _).length_le).trans h

/-- A step along the list comes nearer to its end. -/
theorem distance_tail (n : Nat) (x : Card) (l : List Card) : (distance n l).Less (distance n (x :: l)) := by
  by_cases hold : x.name < n
  · refine .inl ?_
    simp [distance, hold]
  · refine .inr ⟨by simp [distance, hold], ?_⟩
    have hopened : (distance n (x :: l)).opened = (distance n l).opened + if x.opens n then 1 else 0 := by
      simp [distance, Nat.not_lt.1 hold, List.countP_cons]
    rw [hopened]
    split_ifs
    · exact .inl (Nat.lt_succ_self _)
    · exact .inr ⟨rfl, Nat.lt_succ_self _⟩

/-- And so do more steps. -/
theorem distance_append (n : Nat) (x : Card) (p l : List Card) : (distance n l).Less (distance n (x :: (p ++ l))) := by
  induction p generalizing x with
  | nil => exact distance_tail n x l
  | cons y p ih => exact (ih y).trans (distance_tail n x _)

/-! ## What an insertion does -/

/-- A pair was put into a list: the opening parenthesis between two neighbours, the closing one behind a lexeme outside directives
that only lexemes of directives separate from the lexeme `z`. -/
inductive Wrapped (m : Nat) (a z : Card) : List Card → List Card → Prop where
  | intro {p q p' q' : List Card} {x y o c : Card} :
      o.name = m → o.kind = .opening .paren → o.inDirective = x.inDirective →
      c.name = m + 1 → c.kind = .closing .paren → c.inDirective = false → y.inDirective = false →
      p ++ a :: o :: x :: q = p' ++ y :: q' → (∀ u ∈ q'.head?, u.inDirective = true ∨ u = z) →
      Wrapped m a z (p ++ a :: x :: q) (p' ++ y :: c :: q')

variable {m : Nat} {a : Card} {l' : List Card}

/-- The names of a pair are new. -/
theorem Wrapped.grows (h : Wrapped m a z l l') (hm : n ≤ m) : Grows n l l' := by
  obtain @⟨p, q, p', q', x, y, o, c, ho, -, -, hc, -, -, -, hsplit, -⟩ := h
  have hopening : Grows n (p ++ a :: x :: q) (p ++ a :: o :: x :: q) := by
    refine ⟨(List.Sublist.refl p).append (((List.Sublist.refl _).cons o).cons_cons a), ?_⟩
    simp [List.countP_append, List.countP_cons, Nat.not_lt.2 (ho ▸ hm)]
  rw [hsplit] at hopening
  refine hopening.trans ⟨(List.Sublist.refl p').append (((List.Sublist.refl _).cons c).cons_cons y), ?_⟩
  have hnew : ¬c.name < n := by omega
  simp [List.countP_append, List.countP_cons, hnew]

/-- An opening parenthesis is put in neatly behind an old lexeme or another opening parenthesis. -/
theorem neat_opening (h : (p ++ a :: x :: q).IsChain (Neat n)) (ha : a.name < n ∨ a.kind = .opening .paren)
    (ho : n ≤ o.name) (hkind : o.kind = .opening .paren) (hdir : o.inDirective = x.inDirective) :
    (p ++ a :: o :: x :: q).IsChain (Neat n) := by
  obtain ⟨hfront, hax, hback⟩ := List.isChain_append_cons_cons.1 h
  have hao : Neat n a o := by
    refine ⟨fun hopens => ?_, fun hnew hakind hadir => hdir.trans (hax.directive hnew hakind hadir)⟩
    rcases Nat.lt_or_ge a.name n with hold | hnew
    · exact .inl hold
    · have hakind := ha.resolve_left (Nat.not_lt.2 hnew)
      refine .inr (opens_iff.2 ⟨hnew, hakind, ?_⟩)
      by_contra hadir
      have hx := hax.directive hnew hakind (by simpa using hadir)
      rw [← hdir, (opens_iff.1 hopens).2.2] at hx
      cases hx
  have hox : Neat n o x := by
    refine ⟨fun hopens => .inr (opens_iff.2 ⟨ho, hkind, ?_⟩), fun _ _ hodir => hdir ▸ hodir⟩
    rw [hdir, (opens_iff.1 hopens).2.2]
  exact List.isChain_append_cons_cons.2 ⟨hfront, hao, List.isChain_cons_cons.2 ⟨hox, hback⟩⟩

/-- A closing parenthesis is put in neatly behind what is outside directives and in front of anything but a new opening one. -/
theorem neat_closing (h : (p ++ y :: q).IsChain (Neat n)) (hkind : c.kind = .closing .paren)
    (hdir : y.inDirective = false) (hq : ∀ u ∈ q.head?, u.opens n = false) : (p ++ y :: c :: q).IsChain (Neat n) := by
  have hnot : c.kind ≠ .opening .paren := by rw [hkind]; nofun
  have hyc : Neat n y c := by
    refine ⟨fun hopens => absurd (opens_iff.1 hopens).2.1 hnot, fun _ _ hydir => ?_⟩
    rw [hdir] at hydir
    cases hydir
  cases q with
  | nil => exact List.isChain_append_cons_cons.2 ⟨h, hyc, List.isChain_singleton c⟩
  | cons u q =>
    obtain ⟨hfront, -, hback⟩ := List.isChain_append_cons_cons.1 h
    have hcu : Neat n c u := by
      refine ⟨fun hopens => ?_, fun _ hckind => absurd hckind hnot⟩
      rw [hq u rfl] at hopens
      cases hopens
    exact List.isChain_append_cons_cons.2 ⟨hfront, hyc, List.isChain_cons_cons.2 ⟨hcu, hback⟩⟩

/-- A pair is put in tidily, if its opening parenthesis stands behind an old lexeme or another opening parenthesis, and its closing
one in front of anything but a new opening one. -/
theorem Wrapped.tidy (h : Wrapped m a z l l') (hm : n ≤ m) (ht : Tidy n l) (ha : a.name < n ∨ a.kind = .opening .paren)
    (hz : z.opens n = false) : Tidy n l' := by
  obtain @⟨p, q, p', q', x, y, o, c, ho, hokind, hodir, hc, hckind, hcdir, hy, hsplit, hz'⟩ := h
  have hopened := neat_opening ht.neat ha (ho ▸ hm) hokind hodir
  have hnext : ∀ u ∈ q'.head?, u.opens n = false := by
    intro u hu
    rcases hz' u hu with hdir | rfl
    · rw [← Bool.not_eq_true]
      intro hopens
      rw [(opens_iff.1 hopens).2.2] at hdir
      cases hdir
    · exact hz
  have hmem : ∀ {u : Card}, u ∈ p' ++ y :: c :: q' → u = o ∨ u = c ∨ u ∈ p ++ a :: x :: q := by
    intro u hu
    have hu' : u = c ∨ u ∈ p ++ a :: o :: x :: q := by
      rw [hsplit]
      simpa [or_left_comm] using hu
    simpa [or_left_comm] using hu'
  refine ⟨neat_closing (hsplit ▸ hopened) hckind hy hnext, ?_⟩
  intro u hu hnew
  rcases hmem hu with rfl | rfl | hold
  · exact .inl hokind
  · exact .inr ⟨hckind, hcdir⟩
  · exact ht.paren u hold hnew

/-! ## Coming nearer -/

/-- Behind a new lexeme that is no such opening parenthesis there are none in front of the next old lexeme. -/
theorem opened_eq_zero (h : (x :: l).IsChain (Neat n)) (hnew : n ≤ x.name) (hx : x.opens n = false) :
    (l.takeWhile (n ≤ ·.name)).countP (·.opens n) = 0 := by
  induction l generalizing x with
  | nil => rfl
  | cons y l ih =>
    obtain ⟨hxy, hl⟩ := List.isChain_cons_cons.1 h
    rw [List.takeWhile_cons]
    split_ifs with hynew
    · have hy : y.opens n = false := by
        rw [← Bool.not_eq_true]
        intro hopens
        rcases hxy.opens hopens with hold | hopens'
        · omega
        · rw [hx] at hopens'
          cases hopens'
      rw [List.countP_cons_of_neg (by simp [hy])]
      exact ih hl (by simpa using hynew) hy
    · rfl

/-- What stands in front of a lexeme, and behind it, still stands there. -/
theorem sublist_split {p' q' : List Card} (h : (p ++ x :: q).Sublist (p' ++ x :: q'))
    (hnodup : ((p' ++ x :: q').map (·.name)).Nodup) : p.Sublist p' ∧ q.Sublist q' := by
  obtain ⟨-, hback, hcross⟩ := List.nodup_append.1 hnodup.of_map
  have hfront : x ∉ p' := fun hx => hcross x hx x List.mem_cons_self rfl
  have hback : x ∉ q' := (List.nodup_cons.1 hback).1
  obtain ⟨l₁, l₂, hsplit, hp, hq⟩ := List.sublist_append_iff.1 h
  rcases List.append_eq_append_iff.1 hsplit with ⟨m, rfl, hm⟩ | ⟨m, rfl, rfl⟩
  · cases m with
    | nil =>
      rw [List.nil_append] at hm
      rw [← hm] at hq
      exact ⟨by simpa using hp, List.cons_sublist_cons.1 hq⟩
    | cons y m =>
      obtain ⟨rfl, -⟩ := List.cons.inj hm
      exact absurd (hp.subset (by simp)) hfront
  · cases m with
    | nil => exact ⟨by simpa using hp, List.cons_sublist_cons.1 hq⟩
    | cons y m =>
      have hx : x ∈ q' := by
        rcases List.sublist_cons_iff.1 hq with hq | ⟨r, hr, hq⟩
        · exact hq.subset (by simp)
        · obtain ⟨-, rfl⟩ := List.cons.inj hr
          exact hq.subset (by simp)
      exact absurd hx hback

/-- As many old lexemes are behind a lexeme as were there before insertions. -/
theorem Grows.old_behind {p' q' : List Card} (h : Grows n (p ++ x :: q) (p' ++ x :: q'))
    (hnodup : ((p' ++ x :: q').map (·.name)).Nodup) : q'.countP (·.name < n) = q.countP (·.name < n) := by
  obtain ⟨hp, hq⟩ := sublist_split h.sublist hnodup
  have hpold : p.countP (·.name < n) ≤ p'.countP (·.name < n) := hp.countP_le
  have hqold : q.countP (·.name < n) ≤ q'.countP (·.name < n) := hq.countP_le
  have hold := h.old
  simp only [List.countP_append, List.countP_cons] at hold
  omega

/-- When there was an old lexeme up to some other one, there is less to go behind that one, whatever was inserted. -/
theorem distance_behind_old {u p' q' : List Card} (h : Grows n (p ++ (u ++ w :: q)) (p' ++ w :: q'))
    (hnodup : ((p' ++ w :: q').map (·.name)).Nodup) (hold : 0 < (u ++ [w]).countP (·.name < n)) :
    (distance n q').Less (distance n (u ++ w :: q)) := by
  have hgrows : Grows n ((p ++ u) ++ w :: q) (p' ++ w :: q') := by simpa using h
  have hbehind := hgrows.old_behind hnodup
  refine .inl ?_
  rw [List.append_cons u w q, distance, distance, List.countP_append, hbehind]
  dsimp only
  omega

/-- Behind a new bracket there is less to go than from its start on, whatever was inserted when it was scanned: its opening parenthesis
was counted, and behind its closing one there is none to count. -/
theorem distance_behind_new {p' q' m : List Card} {b b' : Bracket} (h : Grows n (p ++ e :: (m ++ w :: q)) (p' ++ w :: q'))
    (hnodup : ((p' ++ w :: q').map (·.name)).Nodup) (ht : Tidy n (p ++ e :: (m ++ w :: q))) (ht' : Tidy n (p' ++ w :: q'))
    (he : e.kind = .opening b) (hw : w.kind = .closing b') (hm : ∀ x ∈ m, x.inDirective = false)
    (hnone : (e :: (m ++ [w])).countP (·.name < n) = 0) : (distance n q').Less (distance n (e :: (m ++ w :: q))) := by
  have hnew : ∀ x ∈ e :: (m ++ [w]), n ≤ x.name := by simpa using List.countP_eq_zero.1 hnone
  have henew : n ≤ e.name := hnew e List.mem_cons_self
  have hwnew : n ≤ w.name := hnew w (by simp)
  have hwdir : w.inDirective = false := by
    rcases ht.paren w (by simp) hwnew with hkind | ⟨-, hdir⟩
    · rw [hw] at hkind
      cases hkind
    · exact hdir
  have hekind : e.kind = .opening .paren := by
    rcases ht.paren e (by simp) henew with hkind | ⟨hkind, -⟩
    · exact hkind
    · rw [he] at hkind
      cases hkind
  -- What is behind a new opening parenthesis of a directive is in that directive as well.
  have hedir : e.inDirective = false := by
    rw [← Bool.not_eq_true]
    intro hdir
    have hchain := ht.neat.right_of_append
    cases m with
    | nil =>
      have hnext := (List.isChain_cons_cons.1 hchain).1.directive henew hekind hdir
      rw [hwdir] at hnext
      cases hnext
    | cons y m =>
      have hnext := (List.isChain_cons_cons.1 hchain).1.directive henew hekind hdir
      rw [hm y List.mem_cons_self] at hnext
      cases hnext
  have hopens : e.opens n = true := opens_iff.2 ⟨henew, hekind, hedir⟩
  have hwopens : w.opens n = false := by
    rw [← Bool.not_eq_true, opens_iff, hw]
    rintro ⟨-, hkind, -⟩
    cases hkind
  have hgrows : Grows n ((p ++ e :: m) ++ w :: q) (p' ++ w :: q') := by simpa using h
  have hbehind := hgrows.old_behind hnodup
  have hsplit : e :: (m ++ w :: q) = (e :: (m ++ [w])) ++ q := by simp
  refine .inr ⟨?_, .inl ?_⟩
  · rw [hsplit, distance, distance, List.countP_append, hnone, hbehind]
    exact (Nat.zero_add _).symm
  · have hzero : (distance n q').opened = 0 := opened_eq_zero ht'.neat.right_of_append hwnew hwopens
    rw [hzero, distance, List.takeWhile_cons_of_pos (by simpa using henew), List.countP_cons_of_pos hopens]
    exact Nat.succ_pos _

/-- Behind a bracket there is less to go than from its start on, whatever was inserted when it was scanned. -/
theorem distance_behind_bracket {p' q' m : List Card} {b b' : Bracket} (h : Grows n (p ++ e :: (m ++ w :: q)) (p' ++ w :: q'))
    (hnodup : ((p' ++ w :: q').map (·.name)).Nodup) (ht : Tidy n (p ++ e :: (m ++ w :: q))) (ht' : Tidy n (p' ++ w :: q'))
    (he : e.kind = .opening b) (hw : w.kind = .closing b') (hm : ∀ x ∈ m, x.inDirective = false) :
    (distance n q').Less (distance n (e :: (m ++ w :: q))) := by
  rcases Nat.eq_zero_or_pos ((e :: (m ++ [w])).countP (·.name < n)) with hnone | hold
  · exact distance_behind_new h hnodup ht ht' he hw hm hnone
  · exact distance_behind_old (u := e :: m) h hnodup hold

end Card

end CodeGroom
