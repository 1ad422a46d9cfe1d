import CodeGroom.Proofs.Grouping.Depths
import CodeGroom.Proofs.Grouping.Inserted

/-!
# Where a run carries the lexemes

Every insertion moves the rest of its line by one column, so in the end a lexeme has moved by as many columns as there are new
lexemes in front of it on its line. Moving each one back by as much gives the listing that there was, and this is what every pair
leaves as it is, whatever lines and pairs it lies across.
-/

namespace CodeGroom

/-- The second lexeme is the first one moved by some columns, and maybe deeper. -/
structure Lexeme.CarriedBy (n : Int) (x y : Lexeme) : Prop where
  eq_shift : y = { x.shift n with depth := y.depth }
  depth_le : x.depth ≤ y.depth

theorem Lexeme.shift_zero (x : Lexeme) : x.shift 0 = x := by
  simp [shift]

/-- Two moves are one move by the sum. -/
theorem Lexeme.shift_shift (x : Lexeme) (m n : Int) : (x.shift m).shift n = x.shift (m + n) := by
  simp [shift, Int.add_assoc]

namespace Entry

/-- How many entries of a line are new, given how many there were in front of them: a line break starts a new line. -/
def newOnLine (n : Nat) : Nat → List Entry → Nat
  | k, [] => k
  | k, e :: es => newOnLine n (if e.lexeme.isNewline then 0 else if e.name < n then k else k + 1) es

/-- The entries that are not new, each moved back by the number of new ones in front of it on its line. -/
def movedBack (n : Nat) : Nat → List Entry → List Entry
  | _, [] => []
  | k, e :: es =>
    let rest := movedBack n (newOnLine n k [e]) es
    if e.name < n then e.change (·.shift (-k)) :: rest else rest

variable {n k : Nat} {e : Entry} {es es' p q : List Entry}

/-- New entries are counted on from what is in front. -/
theorem newOnLine_append (k : Nat) (p q : List Entry) : newOnLine n k (p ++ q) = newOnLine n (newOnLine n k p) q := by
  induction p generalizing k with
  | nil => rfl
  | cons e p ih => exact ih _

/-- New entries are counted back to the last line break. -/
theorem newOnLine_eq_countP {newline : Nat → Bool} {p : List Entry} (h : ∀ e ∈ p, newline e.name = e.lexeme.isNewline) :
    newOnLine n 0 p = ((names p).reverse.takeWhile (!newline ·)).countP (n ≤ ·) := by
  induction p using List.reverseRecOn with
  | nil => rfl
  | append_singleton p e ih =>
    rw [newOnLine_append, ih fun u hu => h u (List.mem_append_left _ hu), newOnLine, newOnLine, names_append, names_cons,
      List.reverse_append, names_nil, List.reverse_singleton, List.singleton_append, List.takeWhile_cons, h e (by simp)]
    cases e.lexeme.isNewline with
    | true => simp
    | false =>
      by_cases hold : e.name < n
      · simp [hold]
      · simp [hold, Nat.not_lt.1 hold]

/-- What is behind is moved back by what is new in front of it, too. -/
theorem movedBack_append (k : Nat) (p q : List Entry) :
    movedBack n k (p ++ q) = movedBack n k p ++ movedBack n (newOnLine n k p) q := by
  induction p generalizing k with
  | nil => rfl
  | cons e p ih =>
    rw [List.cons_append, movedBack, movedBack, ih]
    split_ifs <;> rfl

/-- Where nothing is new nothing is moved back. -/
theorem movedBack_of_lt (h : ∀ e ∈ es, e.name < n) : movedBack n 0 es = es := by
  induction es with
  | nil => rfl
  | cons e es ih =>
    have hnone : newOnLine n 0 [e] = 0 := by
      simp [newOnLine, h e List.mem_cons_self]
    have hshift : e.change (·.shift (-((0 : Nat) : Int))) = e := by
      simp [change, Lexeme.shift_zero]
    rw [movedBack, if_pos (h e List.mem_cons_self), hnone, hshift, ih fun u hu => h u (List.mem_cons_of_mem _ hu)]

/-- A new entry in front of a rest of a line that is moved for it makes no difference. -/
theorem movedBack_shiftLine (k : Nat) (es : List Entry) : movedBack n (k + 1) (shiftLine 1 es) = movedBack n k es := by
  induction es generalizing k with
  | nil => rfl
  | cons e es ih =>
    have hback : (e.change (·.shift 1)).change (·.shift (-((k + 1 : Nat) : Int))) = e.change (·.shift (-k)) := by
      have hsum : 1 + -((k + 1 : Nat) : Int) = -k := by omega
      simp only [change, Lexeme.shift_shift, hsum]
    have hnewline : (e.change (·.shift 1)).lexeme.isNewline = e.lexeme.isNewline := rfl
    have hname : (e.change (·.shift 1)).name = e.name := rfl
    rw [shiftLine, movedBack, movedBack, hback, hname]
    simp only [newOnLine, hnewline, hname]
    cases e.lexeme.isNewline with
    | true => simp
    | false =>
      by_cases hold : e.name < n
      · simp [hold, ih]
      · simp [hold, ih]

/-- An insertion makes no difference. -/
theorem movedBack_insert (hnew : n ≤ e.name) (hnewline : e.lexeme.isNewline = false) (k : Nat) (p q : List Entry) :
    movedBack n k (p ++ e :: shiftLine 1 q) = movedBack n k (p ++ q) := by
  have hcount : newOnLine n (newOnLine n k p) [e] = newOnLine n k p + 1 := by
    simp [newOnLine, hnewline, Nat.not_lt.2 hnew]
  rw [movedBack_append, movedBack, hcount, movedBack_shiftLine, if_neg (Nat.not_lt.2 hnew), ← movedBack_append]

/-- An entry that is not new was moved by the number of new ones in front of it on its line. -/
theorem mem_movedBack (hold : e.name < n) (k : Nat) (p q : List Entry) :
    e.change (·.shift (-(newOnLine n k p))) ∈ movedBack n k (p ++ e :: q) := by
  rw [movedBack_append, movedBack, if_pos hold]
  exact List.mem_append_right _ List.mem_cons_self

end Entry

namespace Grouping

open Entry

variable {es₀ es es' : List Entry} {ps : List Insertion} {n m k : Nat} {s t : Strand}

/-- A pair makes no difference. -/
theorem Paired.movedBack_eq (h : Paired m es es') (hm : n ≤ m) (k : Nat) : movedBack n k es' = movedBack n k es := by
  obtain @⟨p, q, p', q', x, y, -, hsplit, -, -⟩ := h
  have hclosing := movedBack_insert (e := ⟨m + 1, closingAfter y.lexeme⟩) (Nat.le_succ_of_le hm) rfl k (p' ++ [y]) q'
  have hopening := movedBack_insert (e := ⟨m, openingBefore x.lexeme⟩) hm rfl k p (x :: q)
  simp only [List.append_assoc, List.singleton_append] at hclosing
  rw [hclosing, ← hsplit, hopening]

/-- What there was is what there is, moved back. -/
theorem Grown.movedBack_eq (h : Grown es₀ es ps) (hnames : ∀ e ∈ es₀, e.name < es₀.length) :
    movedBack es₀.length 0 es = es₀ := by
  induction h with
  | start => exact movedBack_of_lt hnames
  | pair region hgrown hpaired ih =>
    have hle : es₀.length ≤ _ := hgrown.length_eq ▸ Nat.le_add_right _ _
    rw [hpaired.movedBack_eq hle, ih]

end Grouping

namespace Strand

variable {s t : Strand} {is : List Nat} {f : Lexeme → Lexeme} {i n : Nat} {o : Option Nat} {m : Int}

/-- The number of lexemes named from `n` on in front of lexeme `i` on its line. A line break belongs to the line that it ends. -/
def newOnLine (s : Strand) (n i : Nat) : Nat := ((s.before i).takeWhile (!s.isNewline ·)).countP (n ≤ ·)

/-- Every lexeme of the first strand is in the second one, where it may be deeper. -/
def Deepens (s t : Strand) : Prop := ∀ i < s.size, i < t.size ∧ (s.lexeme (some i)).depth ≤ (t.lexeme (some i)).depth

theorem Deepens.refl (s : Strand) : Deepens s s := by
  intro i hi
  exact ⟨hi, Int.le_refl _⟩

/-- What gets deeper may get deeper again. -/
theorem Deepens.trans {u : Strand} (h : Deepens s t) (h' : Deepens t u) : Deepens s u := by
  intro i hi
  obtain ⟨hlt, hle⟩ := h i hi
  obtain ⟨hlt', hle'⟩ := h' i hlt
  exact ⟨hlt', Int.le_trans hle hle'⟩

/-- Changes that take no lexeme up make a strand no less deep. -/
theorem deepens_modifyAll (hf : ∀ x, x.depth ≤ (f x).depth) (is : List Nat) : Deepens s (s.modifyAll is f) := by
  induction is generalizing s with
  | nil => exact .refl s
  | cons j is ih =>
    have hstep : Deepens s (s.modify j f) := by
      intro i hi
      refine ⟨by rwa [size_modify], ?_⟩
      by_cases hij : i = j
      · rw [← hij, lexeme_modify_self hi]
        exact hf _
      · rw [lexeme_modify_of_ne hij]
    exact hstep.trans ih

/-- An insertion leaves the depths that there were. -/
theorem deepens_insertBetween (prev next : Option Nat) (x : Lexeme) : Deepens s (s.insertBetween prev next x) := by
  intro i hi
  rw [lexeme_insertBetween hi, size_insertBetween]
  exact ⟨Nat.lt_succ_of_lt hi, Int.le_refl _⟩

/-- Shifting a line leaves depths. -/
theorem deepens_shiftLine (o : Option Nat) (n : Int) : Deepens s (s.shiftLine o n) := by
  have hshift : ∀ x : Lexeme, x.depth ≤ (x.shift n).depth := fun x => Int.le_refl x.depth
  exact deepens_modifyAll hshift _

/-- A pair takes no lexeme up. -/
theorem deepens_enclosedAt (o last : Option Nat) : Deepens s (Grouping.enclosedAt s o last) := by
  have hopened : Deepens s (Grouping.openAt s o) := (deepens_insertBetween _ _ _).trans (deepens_shiftLine _ _)
  have hclosed : ∀ {t : Strand} (o : Option Nat), Deepens t (Grouping.closeAt t o) := fun o =>
    (deepens_insertBetween _ _ _).trans (deepens_shiftLine _ _)
  have hdeeper : ∀ x : Lexeme, x.depth ≤ (Grouping.deepen x).depth := fun x => Int.le_of_lt (Int.lt_succ x.depth)
  exact (hopened.trans (hclosed _)).trans (deepens_modifyAll hdeeper _)

namespace Shows

variable {es p q : List Entry} {e : Entry}

/-- The new lexemes in front of a lexeme on its line, as the listing shows them. -/
theorem newOnLine_eq (h : s.Shows (p ++ e :: q)) : s.newOnLine n e.name = Entry.newOnLine n 0 p := by
  have hlinked := h.linked
  rw [Entry.names_append, Entry.names_cons] at hlinked
  rw [newOnLine, hlinked.before_eq, Entry.newOnLine_eq_countP fun u hu => h.isNewline_eq (List.mem_append_left _ hu)]

end Shows

end Strand

namespace Grouping

open Entry

variable {s t : Strand} {es : List Entry} {ps : List Insertion} {i : Nat}

/-- Whatever pairs are put in, no lexeme is taken up. -/
theorem Enclosings.deepens (h : Enclosings s t) : Strand.Deepens s t := by
  induction h with
  | refl => exact .refl s
  | tail _ hpair ih =>
    obtain ⟨-, -, -, -⟩ := hpair
    exact ih.trans (Strand.deepens_enclosedAt _ _)

/-- A lexeme that there was is carried by the number of new ones in front of it on its line. -/
theorem Showing.carriedBy {g : Grouping} (h : Showing s g es) (hs : s.WellLinked) (hi : i ∈ s.order) :
    (s.lexeme (some i)).CarriedBy (g.strand.newOnLine s.size i) (g.strand.lexeme (some i)) := by
  have hrows := hs.shows
  have hsize : i < s.size := Strand.Linked.lt_size hs hi
  obtain ⟨hlt, hdepth⟩ := h.enclosings.deepens i hsize
  have hlinked := h.shows.linked
  have hmem : i ∈ Entry.names es := (hlinked.mem_iff i).2 hlt
  obtain ⟨e, he, rfl⟩ := List.mem_map.1 hmem
  obtain ⟨p, q, rfl⟩ := List.append_of_mem he
  -- What the listing shows is in the one at the start when it is moved back.
  have hback := mem_movedBack (e := e) hsize 0 p q
  rw [← hrows.length_eq, h.grown.movedBack_eq fun u hu => hrows.length_eq ▸ hrows.name_lt hu, hrows.length_eq] at hback
  have hold := hrows.flat_eq _ hback
  have hnew := h.shows.flat_eq e (by simp)
  have hflat : (s.lexeme (some e.name)).flat = e.lexeme.shift (-(Entry.newOnLine s.size 0 p)) := hrows.flat_eq _ hback
  rw [h.shows.newOnLine_eq]
  refine ⟨?_, hdepth⟩
  calc g.strand.lexeme (some e.name)
      = { (g.strand.lexeme (some e.name)).flat with depth := (g.strand.lexeme (some e.name)).depth } := rfl
    _ = { (s.lexeme (some e.name)).flat.shift (Entry.newOnLine s.size 0 p) with
          depth := (g.strand.lexeme (some e.name)).depth } := by
        rw [h.shows.flat_eq e (by simp), hflat, Lexeme.shift_shift, Int.add_left_neg, Lexeme.shift_zero]

/-- What there was stands in its order. -/
theorem Showing.order_old {g : Grouping} (h : Showing s g es) (hs : s.WellLinked) :
    g.strand.order.filter (· < s.size) = s.order := by
  have hrows := hs.shows
  rw [h.shows.order_eq, hrows.order_eq, ← hrows.length_eq]
  exact h.grown.names_old fun u hu => hrows.length_eq ▸ hrows.name_lt hu

/-- The lexemes of a pair are parentheses. -/
theorem Showing.parentheses {g : Grouping} (h : Showing s g es) {p : Insertion} (hp : p ∈ g.pairs) :
    ((g.strand.lexeme (some p.opening)).kind = .opening .paren ∧ (g.strand.lexeme (some p.opening)).text = [.char '(']) ∧
      (g.strand.lexeme (some p.closing)).kind = .closing .paren ∧ (g.strand.lexeme (some p.closing)).text = [.char ')'] := by
  obtain ⟨x, y, hopening, hclosing⟩ := h.grown.exists_parentheses p hp
  have hbare : ∀ e ∈ bares es, (g.strand.lexeme (some e.name)).kind = e.kind ∧
      (g.strand.lexeme (some e.name)).text = e.lexeme.text := by
    intro e he
    obtain ⟨u, hu, rfl⟩ := List.mem_map.1 he
    have hkind := h.shows.kind_eq hu
    have htext : (g.strand.lexeme (some u.name)).text = u.lexeme.text := by
      rw [← h.shows.flat_eq u hu]
      rfl
    exact ⟨hkind, htext⟩
  exact ⟨hbare _ hopening, hbare _ hclosing⟩

/-- The pairs of a grouping account for all that it made of a strand. What was added are an opening and a closing parenthesis for
each pair, which take the next names. What there was stands in its order, and every lexeme of it is what it was, moved by the number
of new ones in front of it on its line, and not less deep. -/
structure Accounts (s : Strand) (g : Grouping) : Prop where
  wellLinked : g.strand.WellLinked
  size_eq : g.strand.size = s.size + 2 * g.inserted
  names_eq : (g.pairs.reverse.flatMap fun p => [p.opening, p.closing]) = List.range' s.size (2 * g.inserted)
  opening : ∀ p ∈ g.pairs,
    (g.strand.lexeme (some p.opening)).kind = .opening .paren ∧ (g.strand.lexeme (some p.opening)).text = [.char '(']
  closing : ∀ p ∈ g.pairs,
    (g.strand.lexeme (some p.closing)).kind = .closing .paren ∧ (g.strand.lexeme (some p.closing)).text = [.char ')']
  order_eq : g.strand.order.filter (· < s.size) = s.order
  carriedBy : ∀ i ∈ s.order,
    (s.lexeme (some i)).CarriedBy (g.strand.newOnLine s.size i) (g.strand.lexeme (some i))

/-- What shows such a listing is accounted for by its pairs. -/
theorem Showing.accounts {g : Grouping} (h : Showing s g es) (hs : s.WellLinked) : Accounts s g where
  wellLinked := h.shows.linked.wellLinked
  size_eq := by rw [← h.shows.length_eq, h.grown.length_eq, hs.shows.length_eq, inserted]
  names_eq := by rw [h.grown.names_pairs, hs.shows.length_eq, inserted]
  opening p hp := (h.parentheses hp).1
  closing p hp := (h.parentheses hp).2
  order_eq := h.order_old hs
  carriedBy i hi := h.carriedBy hs hi

end Grouping

open Grouping

/-- Whether the brackets of a source match or not, and whatever the style, the pairs that a run counts account for all that it makes
of the source. -/
theorem Source.accounts_run (src : Source) (ts : List Token) (st : Style) (trace : Trace) :
    Accounts (src.read ts) (({ strand := src.read ts, trace } : Grouping).run st) := by
  have hlinked : (src.read ts).WellLinked := Strand.wellLinked_ofLexemes _ _
  obtain ⟨es, hes⟩ := exists_showing_run st { strand := src.read ts, trace } hlinked (orderly_rows (src.wellRead ts)) rfl
  exact hes.accounts hlinked

end CodeGroom
