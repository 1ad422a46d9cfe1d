import CodeGroom.Proofs.Grouping.Runs

/-!
# Enclosing a run

The pair goes around the code of a run: what is listed of a run that is enclosed is the run with its code in parentheses.
-/

namespace CodeGroom

namespace Grouping

open Strand

variable {g : Grouping} {top : Region} {s : Strand} {p q : List Entry} {a z x y : Entry}

/-- The strand with an opening parenthesis in front of a lexeme. -/
def openAt (s : Strand) (i : Option Nat) : Strand := (s.insertBefore i (openingBefore (s.lexeme i))).shiftLine i 1

/-- The strand with a closing parenthesis behind a lexeme. -/
def closeAt (s : Strand) (i : Option Nat) : Strand :=
  let t := s.insertAfter i (closingAfter (s.lexeme i))
  t.shiftLine (t.nextOf s.size) 1

/-- The strand with the code between two lexemes in parentheses, when the code there starts with lexeme `i`. -/
def enclosedAt (s : Strand) (i last : Option Nat) : Strand :=
  let t := openAt s i
  let u := closeAt t (t.prev .layout .sameSide last)
  u.modifyAll (u.between (some s.size) (some t.size)) deepen

theorem strand_enclose {first last : Option Nat} (h : g.strand.nextCode first ≠ last) :
    (g.enclose top first last).strand = enclosedAt g.strand (g.strand.nextCode first) last := by
  rw [enclose, if_neg h]
  rfl

theorem pairs_enclose {first last : Option Nat} (h : g.strand.nextCode first ≠ last) :
    (g.enclose top first last).pairs =
      ⟨g.strand.size, (openAt g.strand (g.strand.nextCode first)).size, top⟩ :: g.pairs := by
  rw [enclose, if_neg h]
  rfl

theorem lists_openAt (h : s.Lists (p ++ x :: q)) :
    (openAt s (some x.name)).Lists (p ++ ⟨s.size, (openingBefore x.lexeme).bare⟩ :: x :: q) := by
  have hopening : (openingBefore (s.lexeme (some x.name))).bare = (openingBefore x.lexeme).bare := by
    rw [← h.bare_eq x (by simp)]
    rfl
  have hinsert := h.insertBefore (openingBefore (s.lexeme (some x.name)))
  rw [hopening] at hinsert
  exact hinsert.shiftLine _ _

theorem lists_closeAt (h : s.Lists (p ++ y :: q)) :
    (closeAt s (some y.name)).Lists (p ++ y :: ⟨s.size, (closingAfter y.lexeme).bare⟩ :: q) := by
  have hclosing : (closingAfter (s.lexeme (some y.name))).bare = (closingAfter y.lexeme).bare := by
    rw [← h.bare_eq y (by simp)]
    rfl
  have hinsert := h.insertAfter (closingAfter (s.lexeme (some y.name)))
  rw [hclosing] at hinsert
  exact hinsert.shiftLine _ _

/-- The first code behind some layout. -/
theorem find?_code {lead rest : List Entry} (hlead : ∀ e ∈ lead, e.isLayout = true) (hx : rest.head? = some x)
    (hcode : x.isLayout = false) : (lead ++ rest).find? (!·.isLayout) = some x := by
  obtain ⟨rest, rfl⟩ := List.head?_eq_some_iff.1 hx
  rw [List.find?_append, List.find?_eq_none.2 (fun e he => by simp [hlead e he]), Option.none_or, List.find?_cons, hcode]
  rfl

/-- The last code in front of some layout. -/
theorem prev_code {trail : List Entry} (h : s.Lists (p ++ y :: (trail ++ z :: q))) (hz : z.inDirective = false)
    (htrail : ∀ e ∈ trail, e.isLayout = true) (hcode : y.isLayout = false) (hdir : y.inDirective = false) :
    s.prev .layout .sameSide (some z.name) = some y.name := by
  have hsplit : s.Lists ((p ++ y :: trail) ++ z :: q) := by simpa using h
  have hskip : trail.reverse.find? (fun e => !e.inDirective && !e.isLayout) = none :=
    List.find?_eq_none.2 fun e he => by simp [htrail e (List.mem_reverse.1 he)]
  rw [hsplit.prev_eq hz, List.reverse_append, List.reverse_cons, List.append_assoc, List.find?_append, hskip,
    Option.none_or, List.singleton_append, List.find?_cons, hdir, hcode]
  rfl

/-- Two entries at different places have different names. -/
theorem name_ne (h : s.Lists (p ++ x :: q)) (hz : z ∈ q) : x.name ≠ z.name := by
  have hnodup := h.linked.nodup
  rw [Entry.names_append, Entry.names_cons] at hnodup
  intro heq
  have hmem := Entry.mem_names hz
  rw [← heq] at hmem
  exact (List.nodup_cons.1 (List.nodup_append.1 hnodup).2.1).1 hmem

/-- The code between two entries in parentheses, as it is listed. -/
theorem lists_enclosedAt {core trail : List Entry} (h : s.Lists (p ++ (core ++ (trail ++ z :: q))))
    (htrail : ∀ e ∈ trail, e.isLayout = true) (hx : core.head? = some x) (hy : core.getLast? = some y)
    (hycode : y.isLayout = false) (hydir : y.inDirective = false) (hz : z.inDirective = false) :
    ∃ o c : Entry, o.name = s.size ∧ c.name = (openAt s (some x.name)).size ∧
      o.lexeme = (openingBefore x.lexeme).bare ∧ c.lexeme = (closingAfter y.lexeme).bare ∧
      (enclosedAt s (some x.name) (some z.name)).Lists
        (p ++ o :: (core.map (Entry.change deepen) ++ c :: (trail ++ z :: q))) := by
  obtain ⟨core', rfl⟩ := List.head?_eq_some_iff.1 hx
  obtain ⟨init, hinit⟩ := List.getLast?_eq_some_iff.1 hy
  obtain ⟨t, ht⟩ : ∃ t, t = openAt s (some x.name) := ⟨_, rfl⟩
  obtain ⟨o, ho⟩ : ∃ o : Entry, o = ⟨s.size, (openingBefore x.lexeme).bare⟩ := ⟨_, rfl⟩
  obtain ⟨c, hc⟩ : ∃ c : Entry, c = ⟨t.size, (closingAfter y.lexeme).bare⟩ := ⟨_, rfl⟩
  have hopened : t.Lists ((p ++ o :: init) ++ y :: (trail ++ z :: q)) := by
    have hlists := lists_openAt h
    rw [← ht, ← ho] at hlists
    have hcore : x :: (core' ++ (trail ++ z :: q)) = init ++ y :: (trail ++ z :: q) := by
      rw [← List.cons_append, hinit, List.append_assoc, List.singleton_append]
    rw [List.append_assoc, List.cons_append, ← hcore]
    exact hlists
  have hlast : t.prev .layout .sameSide (some z.name) = some y.name := prev_code hopened hz htrail hycode hydir
  have hclosed : (closeAt t (some y.name)).Lists (p ++ o :: (x :: core' ++ c :: (trail ++ z :: q))) := by
    have hlists := lists_closeAt hopened
    rw [← hc] at hlists
    rw [hinit]
    simpa using hlists
  have hbetween : (closeAt t (some y.name)).between (some s.size) (some t.size) = Entry.names (x :: core') := by
    have hlists := hclosed.between_eq
    rwa [ho, hc] at hlists
  refine ⟨o, c, by rw [ho], by rw [hc, ht], by rw [ho], by rw [hc], ?_⟩
  rw [enclosedAt, ← ht, hlast, hbetween]
  have hsplit : (closeAt t (some y.name)).Lists ((p ++ [o]) ++ (x :: core') ++ c :: (trail ++ z :: q)) := by
    simpa using hclosed
  have hdeep := hsplit.modifyAll_change (f := deepen) fun _ => rfl
  simpa using hdeep

end Grouping

namespace Forest

variable {F : Forest} {d : Int}

/-- A bracket is no layout. -/
theorem isLayout_of_opening {o : Entry} {b : Bracket} (h : o.kind = .opening b) : o.isLayout = false := by
  cases hl : o.isLayout with
  | false => rfl
  | true =>
    rw [Entry.isLayout_iff, h] at hl
    simp at hl

theorem isLayout_of_closing {c : Entry} {b : Bracket} (h : c.kind = .closing b) : c.isLayout = false := by
  cases hl : c.isLayout with
  | false => rfl
  | true =>
    rw [Entry.isLayout_iff, h] at hl
    simp at hl

theorem isLayout_nil : nil.IsLayout := by
  intro e he
  cases he

/-- Matched brackets are layout and then nothing or something that starts with code. -/
theorem exists_lead (h : F.Fits d) : ∃ lead rest : Forest, F = lead ++ rest ∧ lead.IsLayout ∧
    (rest = nil ∨ ∃ x, rest.flatten.head? = some x ∧ x.isLayout = false) := by
  induction F with
  | nil => exact ⟨nil, nil, rfl, isLayout_nil, .inl rfl⟩
  | leaf e rest ih =>
    cases he : e.isLayout with
    | false => exact ⟨nil, leaf e rest, rfl, isLayout_nil, .inr ⟨e, rfl, he⟩⟩
    | true =>
      obtain ⟨lead, rest', rfl, hlead, hrest⟩ := ih h.2.2
      refine ⟨leaf e lead, rest', rfl, ?_, hrest⟩
      intro x hx
      rcases List.mem_cons.1 hx with rfl | hx
      · exact he
      · exact hlead x hx
  | group o inner c rest _ _ =>
    obtain ⟨b, ho, -⟩ := h.1
    exact ⟨nil, group o inner c rest, rfl, isLayout_nil, .inr ⟨o, rfl, isLayout_of_opening ho⟩⟩

/-- Matched brackets are nothing or something that ends with code, and then layout. -/
theorem exists_trail (h : F.Fits d) : ∃ core trail : Forest, F = core ++ trail ∧ trail.IsLayout ∧
    (core = nil ∨ ∃ y, core.flatten.getLast? = some y ∧ y.isLayout = false) := by
  have hcons : ∀ {e y : Entry} {es : List Entry}, es.getLast? = some y → (e :: es).getLast? = some y := by
    intro e y es hes
    rw [List.getLast?_cons, hes]
    rfl
  induction F with
  | nil => exact ⟨nil, nil, rfl, isLayout_nil, .inl rfl⟩
  | leaf e rest ih =>
    obtain ⟨core, trail, rfl, htrail, hcore⟩ := ih h.2.2
    rcases hcore with rfl | ⟨y, hy, hcode⟩
    · cases he : e.isLayout with
      | false => exact ⟨leaf e nil, trail, rfl, htrail, .inr ⟨e, rfl, he⟩⟩
      | true =>
        refine ⟨nil, leaf e trail, rfl, ?_, .inl rfl⟩
        intro x hx
        rcases List.mem_cons.1 hx with rfl | hx
        · exact he
        · exact htrail x hx
    · exact ⟨leaf e core, trail, rfl, htrail, .inr ⟨y, hcons hy, hcode⟩⟩
  | group o inner c rest _ ih =>
    obtain ⟨b, -, hc⟩ := h.1
    obtain ⟨core, trail, rfl, htrail, hcore⟩ := ih h.2.2.2.2
    refine ⟨group o inner c core, trail, rfl, htrail, .inr ?_⟩
    rcases hcore with rfl | ⟨y, hy, hcode⟩
    · exact ⟨c, by simp [List.getLast?_cons], isLayout_of_closing hc⟩
    · refine ⟨y, ?_, hcode⟩
      rw [flatten_group]
      refine hcons ?_
      rw [List.getLast?_append, hcons hy]
      rfl

/-- A run with code in it is code with layout around it. -/
theorem exists_core (h : F.Fits d) (hcode : ¬F.IsLayout) : ∃ (lead core trail : Forest) (x y : Entry),
    F = lead ++ core ++ trail ∧ lead.IsLayout ∧ trail.IsLayout ∧ core.flatten.head? = some x ∧
      core.flatten.getLast? = some y ∧ x.isLayout = false ∧ y.isLayout = false := by
  obtain ⟨lead, rest, rfl, hlead, hrest⟩ := exists_lead h
  rcases hrest with rfl | ⟨x, hx, hxcode⟩
  · rw [append_nil] at hcode
    exact absurd hlead hcode
  obtain ⟨core, trail, rfl, htrail, hcore⟩ := exists_trail (fits_append.1 h).2
  rcases hcore with rfl | ⟨y, hy, hycode⟩
  · -- The code that the rest starts with would have to be layout.
    rw [nil_append] at hx
    rw [htrail x (List.mem_of_head? hx)] at hxcode
    cases hxcode
  · refine ⟨lead, core, trail, x, y, (append_assoc _ _ _).symm, hlead, htrail, ?_, hy, hxcode, hycode⟩
    have hne : core.flatten ≠ [] := by
      intro hnil
      rw [hnil] at hy
      cases hy
    rwa [flatten_append, List.head?_append_of_ne_nil _ hne] at hx

end Forest

namespace Grouping

variable {g : Grouping} {p q : List Entry} {a z : Entry} {run : Forest} {d : Int}

/-- Enclosing a run of matched brackets with code in it puts that code in parentheses. -/
theorem exists_enclosed (top : Region) (h : g.strand.Lists (p ++ a :: (run.flatten ++ z :: q))) (hfits : run.Fits d)
    (hdir : run.OutsideDirectives) (hcode : ¬run.IsLayout) (hz : z.inDirective = false) :
    ∃ (run' : Forest) (i : Insertion), run.Enclosed run' ∧
      (g.enclose top (some a.name) (some z.name)).strand.Lists (p ++ a :: (run'.flatten ++ z :: q)) ∧
      (g.enclose top (some a.name) (some z.name)).pairs = i :: g.pairs ∧ i.region = top ∧
      [i.opening, i.closing].Sublist (Entry.names run'.flatten) := by
  obtain ⟨lead, core, trail, x, y, rfl, hlead, htrail, hx, hy, hxcode, hycode⟩ := Forest.exists_core hfits hcode
  have hydir := (Forest.outsideDirectives_append.1 (Forest.outsideDirectives_append.1 hdir).1).2 y (List.mem_of_getLast? hy)
  have hflat : (lead ++ core ++ trail).flatten ++ z :: q = lead.flatten ++ (core.flatten ++ (trail.flatten ++ z :: q)) := by
    simp
  rw [hflat] at h
  have hinner : g.strand.nextCode (some a.name) = some x.name := by
    have hhead : (core.flatten ++ (trail.flatten ++ z :: q)).head? = some x := by
      rw [List.head?_append, hx]
      rfl
    rw [h.nextCode_eq, find?_code hlead hhead hxcode]
    rfl
  have hne : g.strand.nextCode (some a.name) ≠ some z.name := by
    rw [hinner]
    intro heq
    obtain ⟨core', hcore⟩ := List.head?_eq_some_iff.1 hx
    have hlists : g.strand.Lists ((p ++ a :: lead.flatten) ++ x :: (core' ++ (trail.flatten ++ z :: q))) := by
      rw [hcore] at h
      simpa using h
    exact name_ne hlists (by simp) (Option.some.inj heq)
  have hsplit : g.strand.Lists ((p ++ a :: lead.flatten) ++ (core.flatten ++ (trail.flatten ++ z :: q))) := by
    simpa using h
  obtain ⟨o, c, ho, hc, holex, hclex, hlists⟩ := lists_enclosedAt hsplit htrail hx hy hycode hydir hz
  refine ⟨lead ++ .group o (core.change deepen) c trail, ⟨o.name, c.name, top⟩,
    .intro hlead htrail hx hy hxcode hycode holex hclex, ?_, ?_, rfl, ?_⟩
  · rw [strand_enclose hne, hinner]
    simpa [Forest.flatten_change] using hlists
  · rw [pairs_enclose hne, hinner, ho, hc]
  · simp only [Forest.flatten_append, Forest.flatten_group, Entry.names_append, Entry.names_cons]
    refine (List.Sublist.cons_cons _ ?_).trans (List.sublist_append_right _ _)
    exact (List.singleton_sublist.2 List.mem_cons_self).trans (List.sublist_append_right _ _)

end Grouping

end CodeGroom
