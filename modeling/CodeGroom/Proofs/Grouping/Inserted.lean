import CodeGroom.Proofs.Annotate.Contents
import CodeGroom.Proofs.Grouping.Forward

/-!
# What a run leaves and what it adds

Columns and depths apart, a run leaves all lexemes that there were, in their order, and adds one opening and one closing
parenthesis for each pair that it counts.
-/

namespace CodeGroom

/-- A parenthesis that was inserted: one symbol, and no gap from the source. -/
structure Lexeme.IsParenthesis (x : Lexeme) : Prop where
  kind : x.kind = .opening .paren ∨ x.kind = .closing .paren
  text : x.text = [.char '('] ∨ x.text = [.char ')']
  gap : x.gap = []

/-- A parenthesis is no line break. -/
theorem Lexeme.IsParenthesis.kind_ne {x : Lexeme} (h : x.IsParenthesis) : x.kind ≠ .newline := by
  rcases h.kind with hk | hk <;> rw [hk] <;> decide

namespace Entry

/-- Entries apart from their columns. -/
def bares (es : List Entry) : List Entry := es.map (change Lexeme.bare)

@[simp] theorem bares_append (es es' : List Entry) : bares (es ++ es') = bares es ++ bares es' := List.map_append

@[simp] theorem bares_cons (e : Entry) (es : List Entry) : bares (e :: es) = e.change Lexeme.bare :: bares es := rfl

/-- Shifting a line shows in columns only. -/
theorem bares_shiftLine (n : Int) (es : List Entry) : bares (shiftLine n es) = bares es := by
  obtain ⟨m, q, rfl, hshift, -⟩ := exists_shiftLine n es
  rw [hshift, bares_append, bares_append, bares, List.map_map]
  rfl

end Entry

namespace Grouping

open Entry

variable {es₀ es es' : List Entry} {ps : List Insertion} {n : Nat}

/-- Reading leaves in a directive only what a directive can hold. -/
theorem orderly_rows {s : Strand} (hread : ∀ x ∈ s.lexemes, x.WellRead) : Orderly s.rows := by
  intro e he hdir
  obtain ⟨i, hi, rfl⟩ := List.mem_map.1 he
  have hkind := (hread _ (List.mem_map_of_mem hi)).directive hdir
  show (s.lexeme (some i)).kind.standsInDirective = true
  rcases hkind with hk | hk <;> rw [hk] <;> rfl

/-- An opening parenthesis is one. -/
theorem isParenthesis_openingBefore (x : Lexeme) : (openingBefore x).bare.IsParenthesis := ⟨.inl rfl, .inl rfl, rfl⟩

/-- And so is a closing one. -/
theorem isParenthesis_closingAfter (x : Lexeme) : (closingAfter x).bare.IsParenthesis := ⟨.inr rfl, .inr rfl, rfl⟩

/-- A pair is two parentheses with the next two names, and all that there was. -/
theorem Paired.exists_pair (h : Paired n es es') : ∃ x y : Lexeme,
    (bares es').Perm (⟨n, (openingBefore x).bare⟩ :: ⟨n + 1, (closingAfter y).bare⟩ :: bares es) ∧
    ∀ f : Entry → Bool, f ⟨n, (openingBefore x).bare⟩ = false → f ⟨n + 1, (closingAfter y).bare⟩ = false →
      (bares es').filter f = (bares es).filter f := by
  obtain @⟨p, q, p', q', x, y, -, hsplit, -, -⟩ := h
  refine ⟨x.lexeme, y.lexeme, ?_⟩
  generalize ho : (⟨n, (openingBefore x.lexeme).bare⟩ : Entry) = o
  generalize hc : (⟨n + 1, (closingAfter y.lexeme).bare⟩ : Entry) = c
  have hopened : bares (p' ++ y :: q') = bares p ++ o :: bares (x :: q) := by
    rw [← hsplit, bares_append, bares_cons, bares_shiftLine, ← ho]
    rfl
  have hclosed : bares (p' ++ y :: ⟨n + 1, closingAfter y.lexeme⟩ :: Entry.shiftLine 1 q') =
      bares (p' ++ [y]) ++ c :: bares q' := by
    rw [bares_append, bares_cons, bares_cons, bares_shiftLine, ← hc, bares_append, List.append_assoc]
    rfl
  have hold : bares (p' ++ [y]) ++ bares q' = bares (p' ++ y :: q') := by
    rw [← bares_append, List.append_assoc, List.singleton_append]
  refine ⟨?_, ?_⟩
  · rw [hclosed, bares_append p (x :: q)]
    refine List.perm_middle.trans ?_
    rw [hold, hopened]
    exact (List.perm_middle.cons c).trans (.swap o c _)
  · intro f hfo hfc
    rw [hclosed, List.filter_append, List.filter_cons_of_neg (by simp [hfc]), ← List.filter_append, hold, hopened,
      List.filter_append, List.filter_cons_of_neg (by simp [hfo]), ← List.filter_append, ← bares_append]

theorem name_lt_of_mem_bares (hnames : ∀ e ∈ es, e.name < n) : ∀ e ∈ bares es, e.name < n := by
  intro e he
  obtain ⟨u, hu, rfl⟩ := List.mem_map.1 he
  exact hnames u hu

theorem length_bares (es : List Entry) : (bares es).length = es.length := List.length_map _

/-- Each pair adds two lexemes. -/
theorem Grown.length_eq (h : Grown es₀ es ps) : es.length = es₀.length + 2 * ps.length := by
  induction h with
  | start => rfl
  | pair region _ hpaired ih =>
    obtain ⟨x, y, hperm, -⟩ := hpaired.exists_pair
    have hlength := hperm.length_eq
    simp only [length_bares, List.length_cons] at hlength ⊢
    omega

/-- The parentheses inserted are named behind all lexemes that there were, and no other lexemes are. -/
theorem Grown.isInserted_iff (h : Grown es₀ es ps) (i : Nat) :
    (∃ p ∈ ps, i = p.opening ∨ i = p.closing) ↔ es₀.length ≤ i ∧ i < es.length := by
  induction h with
  | start => simp
  | @pair es es' ps region hgrown hpaired ih =>
    have hlength := (Grown.pair region hgrown hpaired).length_eq
    have hbefore := hgrown.length_eq
    rw [List.length_cons] at hlength
    simp only [List.mem_cons, exists_eq_or_imp, ih]
    omega

/-- What there was is still there, in its order. -/
theorem Grown.old_eq (h : Grown es₀ es ps) (hnames : ∀ e ∈ es₀, e.name < es₀.length) :
    (bares es).filter (·.name < es₀.length) = bares es₀ := by
  induction h with
  | start =>
    refine List.filter_eq_self.2 ?_
    intro e he
    simpa using name_lt_of_mem_bares hnames e he
  | pair region hgrown hpaired ih =>
    obtain ⟨x, y, -, hfilter⟩ := hpaired.exists_pair
    have hlength := hgrown.length_eq
    rw [hfilter _ (by simp; omega) (by simp; omega), ih]

/-- Names do not depend on columns. -/
theorem names_bares (es : List Entry) : names (bares es) = names es := names_map_change _ _

/-- The names that there were stand in their order. -/
theorem Grown.names_old (h : Grown es₀ es ps) (hnames : ∀ e ∈ es₀, e.name < es₀.length) :
    (names es).filter (· < es₀.length) = names es₀ := by
  have hold := congrArg names (h.old_eq hnames)
  rw [names_bares] at hold
  rw [← hold, ← names_bares es, names, names, List.filter_map]
  rfl

/-- What was added is as many opening and closing parentheses as pairs. -/
theorem Grown.new_perm (h : Grown es₀ es ps) (hnames : ∀ e ∈ es₀, e.name < es₀.length) :
    (((bares es).filter (es₀.length ≤ ·.name)).map (·.lexeme.text)).Perm
      (List.replicate ps.length [.char '('] ++ List.replicate ps.length [.char ')']) := by
  induction h with
  | start =>
    have hnone : (bares es₀).filter (es₀.length ≤ ·.name) = [] := by
      refine List.filter_eq_nil_iff.2 ?_
      intro e he
      simpa using name_lt_of_mem_bares hnames e he
    rw [hnone]
    rfl
  | pair region hgrown hpaired ih =>
    obtain ⟨x, y, hperm, -⟩ := hpaired.exists_pair
    have hlength := hgrown.length_eq
    refine ((hperm.filter _).map _).trans ?_
    rw [List.filter_cons_of_pos (by simp; omega), List.filter_cons_of_pos (by simp; omega), List.map_cons, List.map_cons,
      List.length_cons, List.replicate_succ, List.replicate_succ, List.cons_append]
    exact ((ih.cons _).trans List.perm_middle.symm).cons _

/-- Every lexeme that was added is a parenthesis. -/
theorem Grown.isParenthesis (h : Grown es₀ es ps) (hnames : ∀ e ∈ es₀, e.name < es₀.length) :
    ∀ e ∈ bares es, es₀.length ≤ e.name → e.lexeme.IsParenthesis := by
  induction h with
  | start =>
    intro e he hle
    exact absurd (name_lt_of_mem_bares hnames e he) (Nat.not_lt.2 hle)
  | pair region hgrown hpaired ih =>
    obtain ⟨x, y, hperm, -⟩ := hpaired.exists_pair
    intro e he hle
    rcases List.mem_cons.1 (hperm.subset he) with rfl | he
    · exact isParenthesis_openingBefore x
    · rcases List.mem_cons.1 he with rfl | he
      · exact isParenthesis_closingAfter y
      · exact ih e he hle

/-- Each pair is an opening and a closing parenthesis by its names. -/
theorem Grown.exists_parentheses (h : Grown es₀ es ps) : ∀ p ∈ ps, ∃ x y : Lexeme,
    ⟨p.opening, (openingBefore x).bare⟩ ∈ bares es ∧ ⟨p.closing, (closingAfter y).bare⟩ ∈ bares es := by
  induction h with
  | start =>
    intro p hp
    cases hp
  | pair region hgrown hpaired ih =>
    obtain ⟨x, y, hperm, -⟩ := hpaired.exists_pair
    intro p hp
    rcases List.mem_cons.1 hp with rfl | hp
    · exact ⟨x, y, hperm.symm.subset (by simp), hperm.symm.subset (by simp)⟩
    · obtain ⟨x', y', hopening, hclosing⟩ := ih p hp
      exact ⟨x', y', hperm.symm.subset (by simp [hopening]), hperm.symm.subset (by simp [hclosing])⟩

/-- Pairs take the names behind those that there were, in the order in which they were inserted. -/
theorem Grown.names_pairs (h : Grown es₀ es ps) :
    (ps.reverse.flatMap fun p => [p.opening, p.closing]) = List.range' es₀.length (2 * ps.length) := by
  induction h with
  | start => rfl
  | pair region hgrown hpaired ih =>
    rw [List.reverse_cons, List.flatMap_append, ih, List.flatMap_singleton, hgrown.length_eq, List.length_cons, Nat.mul_succ,
      ← List.range'_append_1]
    rfl

end Grouping

end CodeGroom
