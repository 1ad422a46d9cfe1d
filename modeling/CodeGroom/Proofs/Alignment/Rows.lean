import CodeGroom.Alignment.Calls
import CodeGroom.Proofs.Strand.Lines

/-!
# The rows of calls

A call that leads its line has only qualifiers in front of it there, so calls that lead lines stand on different lines. The other
rows of a call, its arguments, stand on the line of the parenthesis that is taken for its own, which may be another call's: then
the two calls have the same arguments.
-/

namespace CodeGroom

/-- Whether a lexeme of the kind can stand between the start of a line and the name of a call that leads the line. -/
def Kind.qualifies : Kind → Bool
  | .type | .member | .qualifier => true
  | _ => false

theorem Kind.qualifies_of_scope {k : Kind} (h : k = .member ∨ k = .qualifier) : k.qualifies = true := by
  rcases h with rfl | rfl <;> rfl

namespace Strand

/-- The opening parenthesis that is taken for that of a call. -/
def openingOf (s : Strand) (call : Nat) : Option Nat :=
  s.nextOfKind (some call) (.opening .call) (some (s.lexeme (some call)).depth) .everything

/-- The rows of a call: its name, then the first lexeme of each argument. -/
def rowsOf (s : Strand) (call : Nat) : List Nat := call :: s.argumentStarts (some call)

/-- The name of a call that leads its line. -/
structure LeadsLine (s : Strand) (call : Nat) : Prop where
  mem : call ∈ s.order
  kind : (s.lexeme (some call)).kind = .callName
  edge : (s.leftEdge (some call)).isSome = true

instance (s : Strand) (call : Nat) : Decidable (s.LeadsLine call) :=
  decidable_of_iff (call ∈ s.order ∧ (s.lexeme (some call)).kind = .callName ∧ (s.leftEdge (some call)).isSome = true)
    ⟨fun ⟨h, h', h''⟩ => ⟨h, h', h''⟩, fun ⟨h, h', h''⟩ => ⟨h, h', h''⟩⟩

variable {s : Strand} {c c' i j k n n' x : Nat}

theorem isNewline_iff : s.isNewline i = true ↔ (s.lexeme (some i)).kind = .newline := by
  rw [isNewline, Lexeme.isNewline, decide_eq_true_eq]

theorem isNewline_of_kind {kind : Kind} (h : (s.lexeme (some i)).kind = kind) (hk : kind ≠ .newline) : s.isNewline i = false := by
  rw [Bool.eq_false_iff, Ne, isNewline_iff, h]
  exact hk

/-! ## The line of a call -/

/-- Only qualifiers stand between a lexeme and the line break in front of its qualifiers. -/
theorem exists_beforeQualifiers {path : List Nat} (h : s.beforeQualifiers path = some n) (hn : s.isNewline n = true) :
    ∃ m rest, path = m ++ n :: rest ∧ ∀ x ∈ m, (s.lexeme (some x)).kind.qualifies = true := by
  fun_induction beforeQualifiers s path with
  | case1 => cases h
  | case2 p k hk => cases h
  | case3 p k hk =>
    obtain rfl := Option.some.inj h
    exact ⟨[], [], rfl, by simp⟩
  | case4 p q rest k hk htype ih =>
    obtain ⟨m, rest', rfl, hm⟩ := ih h
    refine ⟨p :: q :: m, rest', rfl, ?_⟩
    intro x hx
    rcases List.mem_cons.1 hx with rfl | hx
    · exact Kind.qualifies_of_scope hk
    · rcases List.mem_cons.1 hx with rfl | hx
      · rw [htype]
        rfl
      · exact hm x hx
  | case5 p q rest k hk htype =>
    obtain rfl := Option.some.inj h
    refine ⟨[p], rest, rfl, ?_⟩
    intro x hx
    rw [List.mem_singleton.1 hx]
    exact Kind.qualifies_of_scope hk
  | case6 p q rest k hk =>
    obtain rfl := Option.some.inj h
    exact ⟨[], q :: rest, rfl, by simp⟩

/-- The line of a call that leads it, up to the call. -/
theorem LeadsLine.exists_front (h : s.LeadsLine c) (hs : s.WellLinked) : ∃ front newline m rest,
    s.Linked (front ++ newline :: (m ++ c :: rest)) ∧ s.isNewline newline = true ∧
      (∀ x ∈ m, (s.lexeme (some x)).kind.qualifies = true) ∧ s.leftEdge (some c) = (m ++ [c]).head? := by
  obtain ⟨p, q, hlinked⟩ := hs.exists_around h.mem
  have hedge := h.edge
  unfold leftEdge at hedge ⊢
  rw [Option.bind_some, hlinked.before_eq] at hedge ⊢
  cases hbefore : s.beforeQualifiers p.reverse with
  | none =>
    rw [hbefore] at hedge
    cases hedge
  | some n =>
    rw [hbefore] at hedge
    dsimp only at hedge ⊢
    split_ifs at hedge ⊢ with hn
    · obtain ⟨m, rest, hpath, hm⟩ := exists_beforeQualifiers hbefore hn
      have hp : p = rest.reverse ++ n :: m.reverse := by
        rw [← List.reverse_reverse p, hpath]
        simp
      rw [hp, List.append_assoc, List.cons_append] at hlinked
      refine ⟨rest.reverse, n, m.reverse, q, hlinked, hn, fun x hx => hm x (List.mem_reverse.1 hx), ?_⟩
      rw [hlinked.nextOf_eq rest.reverse n (m.reverse ++ c :: q) rfl]
      cases m.reverse <;> rfl
    · cases hedge

/-- What is no qualifier and stands in front of a call that leads its line stands on a line before. -/
theorem LeadsLine.lineOf_lt (h : s.LeadsLine c) (hs : s.WellLinked) (hx : x ∈ s.order) (hxc : s.placeOf x < s.placeOf c)
    (hk : (s.lexeme (some x)).kind.qualifies = false) : s.lineOf x < s.lineOf c := by
  obtain ⟨front, n, m, rest, hlinked, hn, hm, -⟩ := h.exists_front hs
  have hnmem : n ∈ s.order := hlinked.mem_order_iff.1 (by simp)
  have hnc : s.lineOf n < s.lineOf c := hs.lineOf_lt_of_newline hnmem h.mem hlinked.placeOf_lt hn
  rcases Nat.lt_or_ge (s.placeOf n) (s.placeOf x) with hnx | hxn
  · have hxm : x ∈ m := hs.mem_middle hlinked hx hnx hxc
    rw [hm x hxm] at hk
    cases hk
  · exact Nat.lt_of_le_of_lt (hs.lineOf_mono hx hnmem hxn) hnc

/-- Of two calls that lead lines, the second one is on a later line. -/
theorem LeadsLine.lineOf_lt_call (h : s.LeadsLine c) (h' : s.LeadsLine c') (hs : s.WellLinked)
    (hlt : s.placeOf c < s.placeOf c') : s.lineOf c < s.lineOf c' :=
  h'.lineOf_lt hs h.mem hlt (by rw [h.kind]; rfl)

/-! ## The parenthesis of a call -/

/-- The parenthesis taken for that of a call is the first one of a call at its depth behind it. -/
structure OpeningOf (s : Strand) (c k : Nat) : Prop where
  mem : k ∈ s.order
  behind : s.placeOf c < s.placeOf k
  kind : (s.lexeme (some k)).kind = .opening .call
  depth : (s.lexeme (some k)).depth = (s.lexeme (some c)).depth
  first : ∀ x ∈ s.order, s.placeOf c < s.placeOf x → (s.lexeme (some x)).kind = .opening .call →
    (s.lexeme (some x)).depth = (s.lexeme (some c)).depth → s.placeOf k ≤ s.placeOf x

theorem openingOf_spec (hs : s.WellLinked) (hc : c ∈ s.order) (h : s.openingOf c = some k) : s.OpeningOf c k := by
  obtain ⟨p, q, hlinked⟩ := hs.exists_around hc
  unfold openingOf nextOfKind ahead restrict at h
  dsimp only at h
  rw [hlinked.after_eq] at h
  obtain ⟨hk, u, v, hsplit, hu⟩ := List.find?_eq_some_iff_append.1 h
  rw [hsplit] at hlinked
  simp only [Option.all_some, Bool.and_eq_true, decide_eq_true_eq] at hk
  refine ⟨hlinked.mem_order_iff.1 (by simp), hlinked.placeOf_lt, hk.1, hk.2, ?_⟩
  intro x hx hcx hkind hdepth
  rcases Nat.lt_or_ge (s.placeOf x) (s.placeOf k) with hxk | hkx
  · have hxu : x ∈ u := hs.mem_middle hlinked hx hcx hxk
    have hnot := hu x hxu
    simp [hkind, hdepth] at hnot
  · exact hkx

/-! ## The arguments of a call -/

/-- Arguments start on the line of their parenthesis. -/
theorem argumentsOn_sublist (s : Strand) (depth : Int) (fresh : Bool) (path : List Nat) :
    (s.argumentsOn depth fresh path).Sublist (path.takeWhile (!s.isNewline ·)) := by
  fun_induction argumentsOn s depth fresh path with
  | case1 => exact List.nil_sublist _
  | case2 => exact List.nil_sublist _
  | case3 i rest x hstop hdepth ih =>
    have hi : (!s.isNewline i) = true := by
      simp only [stopsArguments, Bool.or_eq_true, not_or] at hstop
      simpa [isNewline, x] using hstop.1.1
    rw [List.takeWhile_cons_of_pos (p := (!s.isNewline ·)) hi]
    exact ih.cons_cons i
  | case4 fresh i rest x hstop hdepth hfresh ih =>
    have hi : (!s.isNewline i) = true := by
      simp only [stopsArguments, Bool.or_eq_true, not_or] at hstop
      simpa [isNewline, x] using hstop.1.1
    rw [List.takeWhile_cons_of_pos (p := (!s.isNewline ·)) hi]
    exact ih.cons i
  | case5 fresh i rest x hstop hdepth ih =>
    have hi : (!s.isNewline i) = true := by
      simp only [stopsArguments, Bool.or_eq_true, not_or] at hstop
      simpa [isNewline, x] using hstop.1.1
    rw [List.takeWhile_cons_of_pos (p := (!s.isNewline ·)) hi]
    exact ih.cons i

/-- Between the starts of two arguments there is another lexeme, and so there is in front of the first one unless it is fresh. -/
theorem argumentsOn_apart (s : Strand) (depth : Int) (fresh : Bool) (path : List Nat) :
    (s.argumentsOn depth fresh path).Pairwise (fun i j => ∃ x, [i, x, j].Sublist path) ∧
      (fresh = false → ∀ j ∈ s.argumentsOn depth fresh path, ∃ x, [x, j].Sublist path) := by
  have hlift : ∀ {l : List Nat} {path : List Nat} (i : Nat), l.Pairwise (fun i j => ∃ x, [i, x, j].Sublist path) →
      l.Pairwise (fun u j => ∃ x, [u, x, j].Sublist (i :: path)) := fun i hl =>
    hl.imp fun ⟨x, hx⟩ => ⟨x, hx.cons i⟩
  fun_induction argumentsOn s depth fresh path with
  | case1 => exact ⟨.nil, fun _ _ h => by cases h⟩
  | case2 => exact ⟨.nil, fun _ _ h => by cases h⟩
  | case3 i rest _ _ _ ih =>
    obtain ⟨hpairs, hlater⟩ := ih
    refine ⟨List.pairwise_cons.2 ⟨fun j hj => ?_, hlift i hpairs⟩, fun h => by cases h⟩
    obtain ⟨x, hx⟩ := hlater rfl j hj
    exact ⟨x, hx.cons_cons i⟩
  | case4 fresh i rest x _ _ _ ih =>
    obtain ⟨hpairs, hlater⟩ := ih
    refine ⟨hlift i hpairs, fun _ j hj => ?_⟩
    have hmem : j ∈ rest := (List.takeWhile_sublist _).subset ((argumentsOn_sublist s depth _ rest).subset hj)
    exact ⟨i, (List.singleton_sublist.2 hmem).cons_cons i⟩
  | case5 fresh i rest x _ _ ih =>
    obtain ⟨hpairs, hlater⟩ := ih
    refine ⟨hlift i hpairs, fun hfresh j hj => ?_⟩
    obtain ⟨x, hx⟩ := hlater hfresh j hj
    exact ⟨x, hx.cons i⟩

/-- Lexeme `i` is the row of a call at a position: 0 for its name, then its arguments. -/
def RowAt (s : Strand) (c n i : Nat) : Prop := (s.rowsOf c)[n]? = some i

theorem argumentStarts_eq (h : s.openingOf c = some k) :
    s.argumentStarts (some c) = s.argumentsOn (s.lexeme (some c)).depth true (s.after k) := by
  unfold openingOf at h
  unfold argumentStarts
  dsimp only
  rw [h]

/-- A row is the name of the call, or an argument on the line of its parenthesis. -/
theorem RowAt.cases (h : s.RowAt c n i) (hs : s.WellLinked) (hc : c ∈ s.order) : (n = 0 ∧ i = c) ∨
    ∃ m k, n = m + 1 ∧ s.openingOf c = some k ∧ s.OpeningOf c k ∧
      (s.argumentsOn (s.lexeme (some c)).depth true (s.after k))[m]? = some i := by
  unfold RowAt rowsOf at h
  cases n with
  | zero => exact .inl ⟨rfl, (Option.some.inj h).symm⟩
  | succ m =>
    rw [List.getElem?_cons_succ] at h
    cases hk : s.openingOf c with
    | none =>
      have hnone : s.argumentStarts (some c) = [] := by
        unfold openingOf at hk
        unfold argumentStarts
        dsimp only
        rw [hk]
      rw [hnone] at h
      cases h
    | some k =>
      rw [argumentStarts_eq hk] at h
      exact .inr ⟨m, k, rfl, rfl, openingOf_spec hs hc hk, h⟩

/-- An argument stands behind its parenthesis, on the same line. -/
theorem OpeningOf.argument (h : s.OpeningOf c k) (hs : s.WellLinked) {depth : Int}
    (hi : i ∈ s.argumentsOn depth true (s.after k)) :
    i ∈ s.order ∧ s.isNewline i = false ∧ s.lineOf i = s.lineOf k ∧ s.placeOf k < s.placeOf i := by
  have hline := (argumentsOn_sublist s depth true (s.after k)).subset hi
  have hbehind := (hs.mem_after_iff h.mem).1 ((List.takeWhile_sublist _).subset hline)
  have hrest : i ∈ s.restOfLine (some k) := by
    have hnewline : (!s.isNewline k) = true := by simp [isNewline_of_kind h.kind (by decide)]
    rw [restOfLine, onward, List.takeWhile_cons_of_pos (p := (!s.isNewline ·)) hnewline]
    exact List.mem_cons_of_mem _ hline
  obtain ⟨hmem, hnewline, hsame, -⟩ := (hs.mem_restOfLine_iff h.mem).1 hrest
  exact ⟨hmem, hnewline, hsame, hbehind.2⟩

theorem RowAt.mem_order (h : s.RowAt c n i) (hs : s.WellLinked) (hc : c ∈ s.order) : i ∈ s.order := by
  rcases h.cases hs hc with ⟨-, rfl⟩ | ⟨m, k, -, -, hk, hm⟩
  · exact hc
  · exact (hk.argument hs (List.mem_of_getElem? hm)).1

theorem RowAt.isNewline (h : s.RowAt c n i) (hs : s.WellLinked) (hc : s.LeadsLine c) : s.isNewline i = false := by
  rcases h.cases hs hc.mem with ⟨-, rfl⟩ | ⟨m, k, -, -, hk, hm⟩
  · exact isNewline_of_kind hc.kind (by decide)
  · exact (hk.argument hs (List.mem_of_getElem? hm)).2.1

/-- No row of a call stands on a line before the call. -/
theorem RowAt.lineOf_le (h : s.RowAt c n i) (hs : s.WellLinked) (hc : c ∈ s.order) : s.lineOf c ≤ s.lineOf i := by
  rcases h.cases hs hc with ⟨-, rfl⟩ | ⟨m, k, -, -, hk, hm⟩
  · exact Nat.le_refl _
  · obtain ⟨-, -, hline, -⟩ := hk.argument hs (List.mem_of_getElem? hm)
    rw [hline]
    exact hs.lineOf_mono hc hk.mem (Nat.le_of_lt hk.behind)

/-- The rows of a call follow each other, with something between two of them. -/
theorem RowAt.placeOf_lt (h : s.RowAt c n i) (h' : s.RowAt c n' j) (hs : s.WellLinked) (hc : c ∈ s.order) (hlt : n < n') :
    s.placeOf i + 1 < s.placeOf j := by
  rcases h'.cases hs hc with ⟨rfl, -⟩ | ⟨m', k', rfl, hopening', hk', hm'⟩
  · exact absurd hlt (Nat.not_lt_zero n)
  · rcases h.cases hs hc with ⟨-, rfl⟩ | ⟨m, k, rfl, hopening, hk, hm⟩
    · have hbehind := hk'.behind
      have hargument := (hk'.argument hs (List.mem_of_getElem? hm')).2.2.2
      omega
    · obtain rfl : k = k' := Option.some.inj (hopening.symm.trans hopening')
      obtain ⟨hlm, hgetm⟩ := List.getElem?_eq_some_iff.1 hm
      obtain ⟨hlm', hgetm'⟩ := List.getElem?_eq_some_iff.1 hm'
      have hpair := List.pairwise_iff_getElem.1 (argumentsOn_apart s (s.lexeme (some c)).depth true (s.after k)).1 m m' hlm hlm'
        (by omega)
      rw [hgetm, hgetm'] at hpair
      obtain ⟨x, hx⟩ := hpair
      obtain ⟨p, q, hlinked⟩ := hs.exists_around hk.mem
      have hafter : (s.after k).Sublist s.order := by
        rw [hlinked.after_eq, hlinked.order_eq]
        exact (List.sublist_cons_self k q).trans (List.sublist_append_right _ _)
      have hix : [i, x].Sublist [i, x, j] := by simp
      have hxj : [x, j].Sublist [i, x, j] := List.sublist_cons_self _ _
      have hlt₁ := hs.placeOf_lt_of_sublist ((hix.trans hx).trans hafter)
      have hlt₂ := hs.placeOf_lt_of_sublist ((hxj.trans hx).trans hafter)
      omega

/-! ## Rows of two calls -/

/-- Of two calls at one depth that lead lines, the parentheses taken for theirs are the same if they stand on one line. -/
theorem OpeningOf.eq_of_lineOf_eq (hs : s.WellLinked) (hc : s.LeadsLine c) (hc' : s.LeadsLine c')
    (hdepth : (s.lexeme (some c)).depth = (s.lexeme (some c')).depth) (hk : s.OpeningOf c k) (hk' : s.OpeningOf c' k')
    (hline : s.lineOf k = s.lineOf k') : k = k' := by
  -- Where the one call stands in front of the other one, its parenthesis is on a line before or behind the other one as well.
  have hfront : ∀ {c c' k k' : Nat}, s.LeadsLine c → s.LeadsLine c' → (s.lexeme (some c)).depth = (s.lexeme (some c')).depth →
      s.OpeningOf c k → s.OpeningOf c' k' → s.lineOf k = s.lineOf k' → s.placeOf c < s.placeOf c' → k = k' := by
    intro c c' k k' hc hc' hdepth hk hk' hline hlt
    rcases Nat.lt_trichotomy (s.placeOf k) (s.placeOf c') with hkc | hkc | hkc
    · have hbefore := hc'.lineOf_lt hs hk.mem hkc (by rw [hk.kind]; rfl)
      have hle := hs.lineOf_mono hc'.mem hk'.mem (Nat.le_of_lt hk'.behind)
      omega
    · have hsame := hk.kind
      rw [hs.placeOf_inj hk.mem hc'.mem hkc, hc'.kind] at hsame
      cases hsame
    · have hle := hk'.first k hk.mem hkc hk.kind (hk.depth.trans hdepth)
      have hge := hk.first k' hk'.mem (Nat.lt_trans hlt hk'.behind) hk'.kind (hk'.depth.trans hdepth.symm)
      exact hs.placeOf_inj hk.mem hk'.mem (Nat.le_antisymm hge hle)
  rcases Nat.lt_trichotomy (s.placeOf c) (s.placeOf c') with hlt | heq | hgt
  · exact hfront hc hc' hdepth hk hk' hline hlt
  · obtain rfl := hs.placeOf_inj hc.mem hc'.mem heq
    exact hs.placeOf_inj hk.mem hk'.mem (Nat.le_antisymm (hk.first k' hk'.mem hk'.behind hk'.kind hk'.depth)
      (hk'.first k hk.mem hk.behind hk.kind hk.depth))
  · exact (hfront hc' hc hdepth.symm hk' hk hline.symm hgt).symm

/-- The name of a call that leads its line stands in front of any parenthesis on that line. -/
theorem LeadsLine.placeOf_lt_opening (hc : s.LeadsLine c) (hs : s.WellLinked) (hk : s.OpeningOf c' k)
    (hline : s.lineOf c = s.lineOf k) : s.placeOf c < s.placeOf k := by
  rcases Nat.lt_trichotomy (s.placeOf c) (s.placeOf k) with hlt | heq | hgt
  · exact hlt
  · have hsame := hk.kind
    rw [← hs.placeOf_inj hc.mem hk.mem heq, hc.kind] at hsame
    cases hsame
  · have hbefore := hc.lineOf_lt hs hk.mem hgt (by rw [hk.kind]; rfl)
    omega

/-- Of two calls at one depth that lead lines, the rows at one position are the same lexeme if they stand on one line: the two
calls are taken to have the same parenthesis. -/
theorem RowAt.eq_of_lineOf_eq (hs : s.WellLinked) (hc : s.LeadsLine c) (hc' : s.LeadsLine c')
    (hdepth : (s.lexeme (some c)).depth = (s.lexeme (some c')).depth) (h : s.RowAt c n i) (h' : s.RowAt c' n j)
    (hline : s.lineOf i = s.lineOf j) : i = j := by
  rcases h.cases hs hc.mem with ⟨rfl, rfl⟩ | ⟨m, k, rfl, hopening, hk, hm⟩
  · obtain rfl : j = c' := (Option.some.inj h').symm
    rcases Nat.lt_trichotomy (s.placeOf i) (s.placeOf j) with hlt | heq | hgt
    · exact absurd hline (Nat.ne_of_lt (hc.lineOf_lt_call hc' hs hlt))
    · exact hs.placeOf_inj hc.mem hc'.mem heq
    · exact absurd hline (Nat.ne_of_gt (hc'.lineOf_lt_call hc hs hgt))
  · rcases h'.cases hs hc'.mem with ⟨hzero, -⟩ | ⟨m', k', heq, hopening', hk', hm'⟩
    · omega
    obtain rfl : m = m' := by omega
    have hi := (hk.argument hs (List.mem_of_getElem? hm)).2.2.1
    have hj := (hk'.argument hs (List.mem_of_getElem? hm')).2.2.1
    obtain rfl := OpeningOf.eq_of_lineOf_eq hs hc hc' hdepth hk hk' (by omega)
    rw [hdepth] at hm
    exact Option.some.inj (hm.symm.trans hm')

/-- Of two calls at one depth that lead lines, a row at a later position stands behind one at an earlier position on its line, with
something between the two. -/
theorem RowAt.placeOf_lt_of_lineOf_eq (hs : s.WellLinked) (hc : s.LeadsLine c) (hc' : s.LeadsLine c')
    (hdepth : (s.lexeme (some c)).depth = (s.lexeme (some c')).depth) (h : s.RowAt c n i) (h' : s.RowAt c' n' j) (hlt : n < n')
    (hline : s.lineOf i = s.lineOf j) : s.placeOf i + 1 < s.placeOf j := by
  rcases h'.cases hs hc'.mem with ⟨rfl, -⟩ | ⟨m', k', rfl, hopening', hk', hm'⟩
  · exact absurd hlt (Nat.not_lt_zero n)
  have hj := hk'.argument hs (List.mem_of_getElem? hm')
  rcases h.cases hs hc.mem with ⟨-, rfl⟩ | ⟨m, k, rfl, hopening, hk, hm⟩
  · have hbehind := hc.placeOf_lt_opening hs hk' (hline.trans hj.2.2.1)
    omega
  · have hi := (hk.argument hs (List.mem_of_getElem? hm)).2.2.1
    obtain rfl := OpeningOf.eq_of_lineOf_eq hs hc hc' hdepth hk hk' (by omega)
    -- The two calls have the same arguments.
    have hrow : s.RowAt c (m' + 1) j := by
      rw [RowAt, rowsOf, List.getElem?_cons_succ, argumentStarts_eq hopening, hdepth]
      exact hm'
    exact h.placeOf_lt hrow hs hc.mem hlt

/-- No call leads a line between the name of another one and the parenthesis taken for that one. -/
def OwnParentheses (s : Strand) : Prop :=
  ∀ c ∈ s.order, s.LeadsLine c → ∀ k ∈ s.openingOf c, ∀ c' ∈ s.between (some c) (some k), ¬s.LeadsLine c'

instance (s : Strand) : Decidable s.OwnParentheses :=
  inferInstanceAs (Decidable (∀ c ∈ s.order, s.LeadsLine c → ∀ k ∈ s.openingOf c, ∀ c' ∈ s.between (some c) (some k),
    ¬s.LeadsLine c'))

theorem mem_between (hs : s.WellLinked) (hi : i ∈ s.order) (hk : k ∈ s.order) (hx : x ∈ s.order)
    (hix : s.placeOf i < s.placeOf x) (hxk : s.placeOf x < s.placeOf k) : x ∈ s.between (some i) (some k) := by
  obtain ⟨p, m, q, hlinked⟩ := hs.exists_behind hi hk (Nat.lt_trans hix hxk)
  have hne : ∀ j ∈ m, decide (some j ≠ some k) = true := by
    intro j hj
    rw [decide_eq_true_eq]
    intro heq
    obtain ⟨u, v, rfl⟩ := List.append_of_mem hj
    have hlt : s.placeOf j < s.placeOf k := Linked.placeOf_lt (p := p ++ i :: u) (m := v) (q := q) (by simpa using hlinked)
    rw [Option.some.inj heq] at hlt
    exact Nat.lt_irrefl _ hlt
  rw [between, ahead, restrict, hlinked.after_eq, List.takeWhile_append_of_pos hne]
  exact List.mem_append_left _ (hs.mem_middle hlinked hx hix hxk)

/-- Where calls have their own parentheses, all rows of a call stand on lines before the next call that leads a line. -/
theorem OwnParentheses.lineOf_lt (hown : s.OwnParentheses) (hs : s.WellLinked) (hc : s.LeadsLine c) (hc' : s.LeadsLine c')
    (hlt : s.placeOf c < s.placeOf c') (h : s.RowAt c n i) : s.lineOf i < s.lineOf c' := by
  rcases h.cases hs hc.mem with ⟨-, rfl⟩ | ⟨m, k, -, hopening, hk, hm⟩
  · exact hc.lineOf_lt_call hc' hs hlt
  · rw [(hk.argument hs (List.mem_of_getElem? hm)).2.2.1]
    refine hc'.lineOf_lt hs hk.mem ?_ (by rw [hk.kind]; rfl)
    rcases Nat.lt_trichotomy (s.placeOf k) (s.placeOf c') with hkc | hkc | hkc
    · exact hkc
    · have hsame := hk.kind
      rw [hs.placeOf_inj hk.mem hc'.mem hkc, hc'.kind] at hsame
      cases hsame
    · exact absurd hc' (hown c hc.mem hc k hopening c' (mem_between hs hc.mem hk.mem hc'.mem hlt hkc))

/-- Where calls have their own parentheses, rows on one line belong to one call. -/
theorem OwnParentheses.eq_of_lineOf_eq (hown : s.OwnParentheses) (hs : s.WellLinked) (hc : s.LeadsLine c)
    (hc' : s.LeadsLine c') (h : s.RowAt c n i) (h' : s.RowAt c' n' j) (hline : s.lineOf i = s.lineOf j) : c = c' := by
  rcases Nat.lt_trichotomy (s.placeOf c) (s.placeOf c') with hlt | heq | hgt
  · have hbefore := hown.lineOf_lt hs hc hc' hlt h
    have hle := h'.lineOf_le hs hc'.mem
    omega
  · exact hs.placeOf_inj hc.mem hc'.mem heq
  · have hbefore := hown.lineOf_lt hs hc' hc hgt h'
    have hle := h.lineOf_le hs hc.mem
    omega

/-- Where calls have their own parentheses, a row tells its call and its position. -/
theorem OwnParentheses.row_inj (hown : s.OwnParentheses) (hs : s.WellLinked) (hc : s.LeadsLine c) (hc' : s.LeadsLine c')
    (h : s.RowAt c n i) (h' : s.RowAt c' n' i) : c = c' ∧ n = n' := by
  obtain rfl := hown.eq_of_lineOf_eq hs hc hc' h h' rfl
  refine ⟨rfl, ?_⟩
  rcases Nat.lt_trichotomy n n' with hlt | heq | hgt
  · have hplace := h.placeOf_lt h' hs hc.mem hlt
    omega
  · exact heq
  · have hplace := h'.placeOf_lt h hs hc.mem hgt
    omega

end Strand

end CodeGroom
