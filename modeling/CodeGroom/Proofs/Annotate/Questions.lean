import CodeGroom.Proofs.Annotate.Closers
import CodeGroom.Proofs.Bracket.Nesting
import Mathlib.Data.List.Infix

/-!
# Question marks and their colons

The depths of the question marks that wait for a colon stand for a list of them for each open bracket. A colon answers the latest
question mark that waits directly inside the innermost open bracket, and is no part of a conditional expression if there is none.
Question marks inside a bracket wait until a semicolon there or until the bracket is closed, by its own closing bracket or along
with one around it.
-/

namespace CodeGroom

/-! ## Which question marks wait -/

/-- The brackets open behind some lexemes, the newest lexeme and the innermost bracket first: the number of lexemes in front of each
bracket, and its shape. -/
def openBehind : List Lexeme → List (Nat × Bracket)
  | [] => []
  | x :: older =>
    match x.kind with
    | .opening b => (older.length, b) :: openBehind older
    | .closing b => Bracket.close Prod.snd b (openBehind older)
    | _ => openBehind older

/-- The question marks that wait for a colon directly inside the innermost of the brackets `opened`, by the number of lexemes in front
of each: of the lexemes that were read while just these brackets were open, a question mark starts to wait, a colon of a conditional
expression answers the latest one, and behind a semicolon none is left. -/
def unanswered (opened : List (Nat × Bracket)) : List Lexeme → List Nat
  | [] => []
  | x :: older =>
    if openBehind older = opened then
      match x.kind with
      | .question => older.length :: unanswered opened older
      | .condColon => (unanswered opened older).tail
      | .semicolon => []
      | _ => unanswered opened older
    else unanswered opened older

/-- Every colon among some lexemes, the newest first, is one of a conditional expression exactly if a question mark waits there. -/
def ColonsDecided : List Lexeme → Prop
  | [] => True
  | x :: older => (x.kind = .condColon → unanswered (openBehind older) older ≠ []) ∧
      (x.kind = .colon → unanswered (openBehind older) older = []) ∧ ColonsDecided older

/-- Whether the lexeme has nothing to do with question marks: it is no bracket, no question mark, no colon and no semicolon. -/
def Kind.isIdle : Kind → Bool
  | opening _ | closing _ | question | condColon | colon | semicolon => false
  | _ => true

/-- Two lexemes of one kind, or two that have nothing to do with question marks. -/
def Lexeme.Alike (x y : Lexeme) : Prop := x.kind = y.kind ∨ x.kind.isIdle = true ∧ y.kind.isIdle = true

section Waiting

variable {x y : Lexeme} {xs ys : List Lexeme} {opened outer : List (Nat × Bracket)} {p : Nat × Bracket} {i : Nat}

/-- What is no bracket opens and closes nothing. -/
theorem openBehind_cons (h : x.kind.isBracket = false) (xs : List Lexeme) : openBehind (x :: xs) = openBehind xs := by
  rw [openBehind]
  split
  · rename_i b hk
    rw [hk] at h
    cases h
  · rename_i b hk
    rw [hk] at h
    cases h
  · rfl

/-- A lexeme that was read while other brackets were open does not matter. -/
theorem unanswered_cons_of_ne (h : openBehind xs ≠ opened) (x : Lexeme) : unanswered opened (x :: xs) = unanswered opened xs := by
  rw [unanswered, if_neg h]

/-- Nor does one that is no question mark, no colon of a conditional expression and no semicolon. -/
theorem unanswered_cons (h : x.kind ≠ .question ∧ x.kind ≠ .condColon ∧ x.kind ≠ .semicolon) (opened : List (Nat × Bracket))
    (xs : List Lexeme) : unanswered opened (x :: xs) = unanswered opened xs := by
  rw [unanswered]
  split_ifs
  · split
    · exact absurd ‹_› h.1
    · exact absurd ‹_› h.2.1
    · exact absurd ‹_› h.2.2
    · rfl
  · rfl

/-- Every open bracket was read. -/
theorem lt_of_mem_openBehind (h : p ∈ openBehind xs) : p.1 < xs.length := by
  induction xs with
  | nil => cases h
  | cons x xs ih =>
    rw [openBehind] at h
    rw [List.length_cons]
    split at h
    · rcases List.mem_cons.1 h with rfl | h
      · exact Nat.lt_succ_self _
      · exact Nat.lt_succ_of_lt (ih h)
    · exact Nat.lt_succ_of_lt (ih ((Bracket.close_suffix _ _ _).subset h))
    · exact Nat.lt_succ_of_lt (ih h)

/-- Nothing waits inside a bracket that is not read yet. -/
theorem unanswered_of_le (hp : p ∈ opened) (h : xs.length ≤ p.1) : unanswered opened xs = [] := by
  induction xs with
  | nil => rfl
  | cons x xs ih =>
    rw [List.length_cons] at h
    have hne : openBehind xs ≠ opened := by
      rintro rfl
      have hlt := lt_of_mem_openBehind hp
      omega
    rw [unanswered_cons_of_ne hne, ih (by omega)]

/-- What waits is a question mark that was read while just the same brackets were open. -/
theorem exists_question (h : i ∈ unanswered opened xs) :
    ∃ newer q older, xs = newer ++ q :: older ∧ older.length = i ∧ q.kind = .question ∧ openBehind older = opened := by
  induction xs with
  | nil => cases h
  | cons x xs ih =>
    have hrest : i ∈ unanswered opened xs → ∃ newer q older, x :: xs = newer ++ q :: older ∧ older.length = i ∧
        q.kind = .question ∧ openBehind older = opened := by
      intro hmem
      obtain ⟨newer, q, older, rfl, hq⟩ := ih hmem
      exact ⟨x :: newer, q, older, rfl, hq⟩
    rw [unanswered] at h
    split_ifs at h with hopened
    · split at h
      · rename_i hk
        rcases List.mem_cons.1 h with rfl | h
        · exact ⟨[], x, xs, rfl, rfl, hk, hopened⟩
        · exact hrest h
      · exact hrest (List.mem_of_mem_tail h)
      · cases h
      · exact hrest h
    · exact hrest h

/-! ## Lexemes that are alike -/

/-- What is idle is no bracket. -/
theorem isBracket_of_isIdle {kind : Kind} (h : kind.isIdle = true) : kind.isBracket = false := by
  cases kind <;> first | rfl | cases h

theorem ne_of_isIdle {kind kind' : Kind} (h : kind.isIdle = true) (h' : kind'.isIdle = false) : kind ≠ kind' := by
  rintro rfl
  rw [h] at h'
  cases h'

/-- Alike lexemes leave the same brackets open and the same question marks waiting. -/
theorem openBehind_alike (h : List.Forall₂ Lexeme.Alike xs ys) : openBehind xs = openBehind ys := by
  induction h with
  | nil => rfl
  | @cons x y xs ys hxy htail ih =>
    rcases hxy with hk | ⟨hx, hy⟩
    · rw [openBehind, openBehind, hk, ih, htail.length_eq]
    · rw [openBehind_cons (isBracket_of_isIdle hx), openBehind_cons (isBracket_of_isIdle hy), ih]

/-- What is idle neither asks nor answers. -/
theorem unanswered_of_isIdle (hx : x.kind.isIdle = true) (opened : List (Nat × Bracket)) (xs : List Lexeme) :
    unanswered opened (x :: xs) = unanswered opened xs :=
  unanswered_cons ⟨ne_of_isIdle hx rfl, ne_of_isIdle hx rfl, ne_of_isIdle hx rfl⟩ opened xs

/-- Lexemes that are alike leave the same questions open. -/
theorem unanswered_alike (h : List.Forall₂ Lexeme.Alike xs ys) (opened : List (Nat × Bracket)) :
    unanswered opened xs = unanswered opened ys := by
  induction h with
  | nil => rfl
  | @cons x y xs ys hxy htail ih =>
    rcases hxy with hk | ⟨hx, hy⟩
    · rw [unanswered, unanswered, hk, ih, htail.length_eq, openBehind_alike htail]
    · rw [unanswered_of_isIdle hx, unanswered_of_isIdle hy, ih]

/-- Whether colons are decided does not depend on idle lexemes. -/
theorem ColonsDecided.alike (h : List.Forall₂ Lexeme.Alike xs ys) (hys : ColonsDecided ys) : ColonsDecided xs := by
  induction h with
  | nil => trivial
  | @cons x y xs ys hxy htail ih =>
    obtain ⟨hcond, hcolon, hrest⟩ := hys
    rw [ColonsDecided, openBehind_alike htail, unanswered_alike htail]
    rcases hxy with hk | ⟨hx, -⟩
    · exact ⟨hk ▸ hcond, hk ▸ hcolon, ih hrest⟩
    · exact ⟨fun hk => absurd hk (ne_of_isIdle hx rfl), fun hk => absurd hk (ne_of_isIdle hx rfl), ih hrest⟩

/-- What is decided in the end was decided before. -/
theorem ColonsDecided.of_append {p q : List Lexeme} (h : ColonsDecided (p ++ x :: q)) : ColonsDecided (x :: q) := by
  induction p with
  | nil => exact h
  | cons y p ih => exact ih h.2.2

/-! ## One list for all brackets -/

/-- The depths of the question marks that wait directly inside the innermost of some open brackets, then of those that wait inside the
next one, and so on. -/
def waiting (opened : List (Nat × Bracket)) (xs : List Lexeme) : List Nat :=
  opened.tails.flatMap fun outer => List.replicate (unanswered outer xs).length outer.length

/-- The depths of those that wait outside of the innermost bracket. -/
def waitingOutside (opened : List (Nat × Bracket)) (xs : List Lexeme) : List Nat :=
  opened.tails.tail.flatMap fun outer => List.replicate (unanswered outer xs).length outer.length

/-- The questions that wait are those of the innermost bracket and those outside of it. -/
theorem waiting_eq (opened : List (Nat × Bracket)) (xs : List Lexeme) :
    waiting opened xs = List.replicate (unanswered opened xs).length opened.length ++ waitingOutside opened xs := by
  cases opened <;> rfl

theorem waiting_cons (p : Nat × Bracket) (outer : List (Nat × Bracket)) (xs : List Lexeme) :
    waiting (p :: outer) xs = List.replicate (unanswered (p :: outer) xs).length (outer.length + 1) ++ waiting outer xs := rfl

theorem length_lt_of_mem_tail (h : outer ∈ opened.tails.tail) : outer.length < opened.length := by
  cases opened with
  | nil => cases h
  | cons p opened =>
    have hsuffix : outer <:+ opened := (List.mem_tails _ _).1 h
    exact Nat.lt_succ_of_le hsuffix.length_le

/-- Questions outside the innermost bracket wait at lower levels. -/
theorem lt_of_mem_waitingOutside (h : i ∈ waitingOutside opened xs) : i < opened.length := by
  obtain ⟨outer, hmem, hi⟩ := List.mem_flatMap.1 h
  rw [List.eq_of_mem_replicate hi]
  exact length_lt_of_mem_tail hmem

/-- No question waits at a higher level. -/
theorem le_of_mem_waiting (h : i ∈ waiting opened xs) : i ≤ opened.length := by
  rw [waiting_eq, List.mem_append] at h
  rcases h with h | h
  · exact Nat.le_of_eq (List.eq_of_mem_replicate h)
  · exact Nat.le_of_lt (lt_of_mem_waitingOutside h)

/-- What is read inside the innermost bracket does not change what waits outside. -/
theorem waitingOutside_cons (x : Lexeme) (xs : List Lexeme) :
    waitingOutside (openBehind xs) (x :: xs) = waitingOutside (openBehind xs) xs := by
  refine List.flatMap_congr fun outer houter => ?_
  have hne : openBehind xs ≠ outer := by
    rintro rfl
    exact Nat.lt_irrefl _ (length_lt_of_mem_tail houter)
  rw [unanswered_cons_of_ne hne]

/-- A lexeme that is no question mark, no colon of a conditional expression and no semicolon changes nothing. -/
theorem waiting_pass (h : x.kind ≠ .question ∧ x.kind ≠ .condColon ∧ x.kind ≠ .semicolon) (opened : List (Nat × Bracket))
    (xs : List Lexeme) : waiting opened (x :: xs) = waiting opened xs := by
  refine List.flatMap_congr fun outer _ => ?_
  rw [unanswered_cons h]

/-- Lexemes that are alike leave the same questions waiting. -/
theorem waiting_alike (h : List.Forall₂ Lexeme.Alike xs ys) (opened : List (Nat × Bracket)) : waiting opened xs = waiting opened ys := by
  refine List.flatMap_congr fun outer _ => ?_
  rw [unanswered_alike h]

/-- The brackets that stay open keep what waits inside of them. -/
theorem filter_le_waiting (h : outer <:+ opened) (xs : List Lexeme) : (waiting opened xs).filter (· ≤ outer.length) = waiting outer xs := by
  induction opened with
  | nil =>
    obtain rfl := List.suffix_nil.1 h
    refine List.filter_eq_self.2 fun i hi => ?_
    exact decide_eq_true (le_of_mem_waiting hi)
  | cons p opened ih =>
    rcases List.suffix_cons_iff.1 h with rfl | h
    · refine List.filter_eq_self.2 fun i hi => ?_
      exact decide_eq_true (le_of_mem_waiting hi)
    · have hlt : outer.length < opened.length + 1 := Nat.lt_succ_of_le h.length_le
      have hdeep : (List.replicate (unanswered (p :: opened) xs).length (opened.length + 1)).filter (· ≤ outer.length) = [] := by
        refine List.filter_eq_nil_iff.2 fun i hi => ?_
        rw [List.eq_of_mem_replicate hi, decide_eq_true_eq]
        omega
      rw [waiting_cons, List.filter_append, hdeep, List.nil_append, ih h]

/-- A semicolon leaves what waits outside. -/
theorem filter_lt_waiting (opened : List (Nat × Bracket)) (xs : List Lexeme) :
    (waiting opened xs).filter (· < opened.length) = waitingOutside opened xs := by
  have hinside : (List.replicate (unanswered opened xs).length opened.length).filter (· < opened.length) = [] := by
    refine List.filter_eq_nil_iff.2 fun i hi => ?_
    rw [List.eq_of_mem_replicate hi, decide_eq_true_eq]
    exact Nat.lt_irrefl _
  have houtside : (waitingOutside opened xs).filter (· < opened.length) = waitingOutside opened xs := by
    refine List.filter_eq_self.2 fun i hi => ?_
    exact decide_eq_true (lt_of_mem_waitingOutside hi)
  rw [waiting_eq, List.filter_append, hinside, houtside, List.nil_append]

/-- A question mark waits inside the innermost bracket. -/
theorem waiting_question (h : x.kind = .question) (xs : List Lexeme) :
    waiting (openBehind xs) (x :: xs) = (openBehind xs).length :: waiting (openBehind xs) xs := by
  have hmore : unanswered (openBehind xs) (x :: xs) = xs.length :: unanswered (openBehind xs) xs := by
    rw [unanswered, if_pos rfl, h]
  rw [waiting_eq, waiting_eq, hmore, waitingOutside_cons, List.length_cons, List.replicate_succ, List.cons_append]

/-- A colon of a conditional expression answers the latest one that waits there. -/
theorem waiting_condColon (h : x.kind = .condColon) (hwaits : unanswered (openBehind xs) xs ≠ []) :
    waiting (openBehind xs) xs = (openBehind xs).length :: waiting (openBehind xs) (x :: xs) := by
  have hless : unanswered (openBehind xs) (x :: xs) = (unanswered (openBehind xs) xs).tail := by
    rw [unanswered, if_pos rfl, h]
  obtain ⟨i, rest, hrest⟩ := List.exists_cons_of_ne_nil hwaits
  rw [waiting_eq, waiting_eq, hless, waitingOutside_cons, hrest, List.length_cons, List.replicate_succ, List.cons_append,
    List.tail_cons]

/-- A semicolon drops the questions of the innermost bracket. -/
theorem waiting_semicolon (h : x.kind = .semicolon) (xs : List Lexeme) :
    waiting (openBehind xs) (x :: xs) = waitingOutside (openBehind xs) xs := by
  have hnone : unanswered (openBehind xs) (x :: xs) = [] := by rw [unanswered, if_pos rfl, h]
  rw [waiting_eq, hnone, waitingOutside_cons, List.length_nil, List.replicate_zero, List.nil_append]

/-- Inside a bracket that has just been opened nothing waits. -/
theorem waiting_opening {b : Bracket} (h : x.kind = .opening b) (xs : List Lexeme) :
    waiting (openBehind (x :: xs)) (x :: xs) = waiting (openBehind xs) xs := by
  have hpass : x.kind ≠ .question ∧ x.kind ≠ .condColon ∧ x.kind ≠ .semicolon := by simp [h]
  have hopened : openBehind (x :: xs) = (xs.length, b) :: openBehind xs := by rw [openBehind, h]
  have hnone : unanswered ((xs.length, b) :: openBehind xs) xs = [] := unanswered_of_le List.mem_cons_self (Nat.le_refl _)
  rw [waiting_pass hpass, hopened, waiting_cons, hnone, List.length_nil, List.replicate_zero, List.nil_append]

/-- What waits inside a bracket that is closed waits no more. -/
theorem waiting_closing {b : Bracket} (h : x.kind = .closing b) (xs : List Lexeme) :
    waiting (openBehind (x :: xs)) (x :: xs) = (waiting (openBehind xs) xs).filter (· ≤ (openBehind (x :: xs)).length) := by
  have hpass : x.kind ≠ .question ∧ x.kind ≠ .condColon ∧ x.kind ≠ .semicolon := by simp [h]
  have hopened : openBehind (x :: xs) = Bracket.close Prod.snd b (openBehind xs) := by rw [openBehind, h]
  rw [waiting_pass hpass, filter_le_waiting]
  rw [hopened]
  exact Bracket.close_suffix _ _ _

/-! ## Lexemes that are read behind others -/

/-- Some lexemes are read behind others, and of these at most the kinds change that have nothing to do with question marks. -/
def Grows (xs ys : List Lexeme) : Prop := ∃ new old, ys = new ++ old ∧ List.Forall₂ Lexeme.Alike old xs

theorem Grows.cons (h : List.Forall₂ Lexeme.Alike ys xs) (x : Lexeme) : Grows xs (x :: ys) := ⟨[x], ys, rfl, h⟩

theorem alike_self (xs : List Lexeme) : List.Forall₂ Lexeme.Alike xs xs := List.forall₂_same.2 fun _ _ => .inl rfl

/-- A colon stays what it is. -/
theorem Grows.exists_kind {p q : List Lexeme} (h : Grows xs ys) (hxs : xs = p ++ x :: q) (hx : x.kind.isIdle = false) :
    ∃ p' x' q', ys = p' ++ x' :: q' ∧ q'.length = q.length ∧ x'.kind = x.kind := by
  obtain ⟨new, old, rfl, halike⟩ := h
  rw [hxs] at halike
  have hbehind := List.forall₂_drop_append old p (x :: q) halike
  obtain ⟨x', q', hkind, hrest, hdrop⟩ := List.forall₂_cons_right_iff.1 hbehind
  refine ⟨new ++ old.take p.length, x', q', ?_, hrest.length_eq, ?_⟩
  · rw [List.append_assoc, ← hdrop, List.take_append_drop]
  · rcases hkind with hkind | ⟨-, hidle⟩
    · exact hkind
    · rw [hidle] at hx
      cases hx

end Waiting

end CodeGroom
