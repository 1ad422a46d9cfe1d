import CodeGroom.Proofs.Alignment.Rows
import CodeGroom.Proofs.Bracket.Nesting

/-!
# Arguments by their brackets

The arguments of a call are found by the depths of lexemes. Where these are those of the brackets, the arguments are what stands
between the commas directly inside the parentheses of the call, up to the end of the line, of the statement or of the parentheses.
-/

namespace CodeGroom

namespace Strand

variable {s : Strand} {depth : Int} {opened : List Bracket} {path : List Nat} {i o : Nat}

/-- The brackets open behind a lexeme, those in front of it being `opened`. -/
def nestAt (s : Strand) (opened : List Bracket) (i : Nat) : List Bracket := (s.lexeme (some i)).kind.nest opened

/-- Whether a list of arguments ends in front of a lexeme: a line break, a semicolon, or what closes the last open bracket. -/
def EndsArguments (s : Strand) (opened : List Bracket) (i : Nat) : Prop :=
  (s.lexeme (some i)).kind = .newline ∨ (s.lexeme (some i)).kind = .semicolon ∨ s.nestAt opened i = []

instance (s : Strand) (opened : List Bracket) (i : Nat) : Decidable (s.EndsArguments opened i) :=
  inferInstanceAs (Decidable (_ ∨ _ ∨ _))

/-- The lexemes of a list of arguments along a path that starts inside the brackets `opened`. -/
def argumentList (s : Strand) : List Bracket → List Nat → List Nat
  | _, [] => []
  | opened, i :: rest => if s.EndsArguments opened i then [] else i :: s.argumentList (s.nestAt opened i) rest

/-- A path that starts inside the brackets `opened`, cut at the commas that stand directly inside a single one. -/
def argumentParts (s : Strand) : List Bracket → List Nat → List (List Nat)
  | _, [] => [[]]
  | opened, i :: rest =>
    if (s.lexeme (some i)).kind = .comma ∧ opened.length = 1 then [] :: s.argumentParts opened rest
    else match s.argumentParts (s.nestAt opened i) rest with
      | [] => [[i]]
      | part :: parts => (i :: part) :: parts

/-- Up to the end of a list of arguments, and for the bracket that closes it, the depth of a lexeme is `depth` and the number of
brackets open around it; a bracket stands outside of itself. -/
def DepthsFollow (s : Strand) (depth : Int) : List Bracket → List Nat → Prop
  | _, [] => True
  | opened, i :: rest =>
    (s.lexeme (some i)).kind = .newline ∨ (s.lexeme (some i)).kind = .semicolon ∨
      (s.lexeme (some i)).depth = depth + min opened.length (s.nestAt opened i).length ∧
        (s.nestAt opened i ≠ [] → s.DepthsFollow depth (s.nestAt opened i) rest)

instance decidableDepthsFollow (s : Strand) (depth : Int) : ∀ opened path, Decidable (s.DepthsFollow depth opened path)
  | _, [] => inferInstanceAs (Decidable True)
  | opened, i :: rest =>
    have := decidableDepthsFollow s depth (s.nestAt opened i) rest
    inferInstanceAs (Decidable (_ ∨ _ ∨ _ ∧ (_ → _)))

/-- The parts of the list of arguments along a path that starts inside the brackets `opened`. -/
def partsAlong (s : Strand) (opened : List Bracket) (path : List Nat) : List (List Nat) :=
  s.argumentParts opened (s.argumentList opened path)

/-! ## Cutting -/

/-- There is a first part at least. -/
theorem exists_argumentParts_eq (s : Strand) (opened : List Bracket) (path : List Nat) :
    ∃ part parts, s.argumentParts opened path = part :: parts := by
  induction path generalizing opened with
  | nil => exact ⟨[], [], rfl⟩
  | cons i path ih =>
    rw [argumentParts]
    split_ifs
    · exact ⟨[], _, rfl⟩
    · obtain ⟨part, parts, hparts⟩ := ih (s.nestAt opened i)
      rw [hparts]
      exact ⟨i :: part, parts, rfl⟩

/-- Where the arguments end there is no other part. -/
theorem partsAlong_of_ends (h : s.EndsArguments opened i) (path : List Nat) : s.partsAlong opened (i :: path) = [[]] := by
  rw [partsAlong, argumentList, if_pos h]
  rfl

/-- A comma opens and closes nothing. -/
theorem nestAt_comma (h : (s.lexeme (some i)).kind = .comma) (opened : List Bracket) : s.nestAt opened i = opened := by
  rw [nestAt, h]
  rfl

/-- A comma directly inside the parentheses ends a part. -/
theorem partsAlong_comma (hgoes : ¬s.EndsArguments opened i) (h : (s.lexeme (some i)).kind = .comma ∧ opened.length = 1)
    (path : List Nat) : s.partsAlong opened (i :: path) = [] :: s.partsAlong opened path := by
  rw [partsAlong, argumentList, if_neg hgoes, argumentParts, if_pos h, nestAt_comma h.1, partsAlong]

/-- Any other lexeme belongs to the part that it stands in front of. -/
theorem partsAlong_cons (hgoes : ¬s.EndsArguments opened i) (h : ¬((s.lexeme (some i)).kind = .comma ∧ opened.length = 1))
    (path : List Nat) : ∃ part parts, s.partsAlong (s.nestAt opened i) path = part :: parts ∧
      s.partsAlong opened (i :: path) = (i :: part) :: parts := by
  obtain ⟨part, parts, hparts⟩ := exists_argumentParts_eq s (s.nestAt opened i) (s.argumentList (s.nestAt opened i) path)
  refine ⟨part, parts, hparts, ?_⟩
  rw [partsAlong, argumentList, if_neg hgoes, argumentParts, if_neg h, hparts]

/-- No part but possibly the last is empty. -/
def NonemptyButLast (parts : List (List Nat)) : Prop := ∀ part ∈ parts.dropLast, part ≠ []

instance (parts : List (List Nat)) : Decidable (NonemptyButLast parts) :=
  inferInstanceAs (Decidable (∀ part ∈ parts.dropLast, part ≠ []))

/-- The parts behind the first one are such parts, too. -/
theorem NonemptyButLast.tail {part : List Nat} {parts : List (List Nat)} (h : NonemptyButLast (part :: parts)) :
    NonemptyButLast parts := by
  cases parts with
  | nil => exact fun _ hmem => nomatch hmem
  | cons part' parts => exact fun u hu => h u (List.mem_cons_of_mem _ hu)

/-! ## Scanning by depths -/

/-- The scan stops where the list of arguments ends. -/
theorem stopsArguments_iff (hlast : opened.getLast? = some .call) (hdepths : s.DepthsFollow depth opened (i :: path)) :
    stopsArguments depth (s.lexeme (some i)) = true ↔ s.EndsArguments opened i := by
  rw [stopsArguments, EndsArguments, Bool.or_eq_true, Bool.or_eq_true, Lexeme.isNewline, decide_eq_true_eq, decide_eq_true_eq, or_assoc,
    Bool.and_eq_true, decide_eq_true_eq, decide_eq_true_eq]
  rcases hdepths with hk | hk | ⟨hdepth, -⟩
  · simp [hk]
  · simp [hk]
  · have hopened : 0 < opened.length := List.length_pos_of_ne_nil (by rintro rfl; cases hlast)
    refine or_congr_right (or_congr_right ⟨?_, ?_⟩)
    · rintro ⟨-, hd⟩
      refine List.length_eq_zero_iff.1 ?_
      omega
    · intro hnest
      rw [hnest] at hdepth
      exact ⟨Kind.eq_closing_of_nest hlast hnest, by simpa using hdepth⟩

/-- Behind a lexeme in front of which the list does not end, depths go on as the brackets do. -/
theorem DepthsFollow.next (h : s.DepthsFollow depth opened (i :: path)) (hgoes : ¬s.EndsArguments opened i) :
    (s.lexeme (some i)).depth = depth + min opened.length (s.nestAt opened i).length ∧ s.nestAt opened i ≠ [] ∧
      s.DepthsFollow depth (s.nestAt opened i) path := by
  rw [EndsArguments, not_or, not_or] at hgoes
  rcases h with hk | hk | ⟨hdepth, hrest⟩
  · exact absurd hk hgoes.1
  · exact absurd hk hgoes.2.1
  · exact ⟨hdepth, hgoes.2.2, hrest hgoes.2.2⟩

/-- One step of the scan for arguments. -/
theorem argumentsOn_cons (h : ¬stopsArguments depth (s.lexeme (some i)) = true) (fresh : Bool) (path : List Nat) :
    s.argumentsOn depth fresh (i :: path) =
      if (s.lexeme (some i)).depth = depth + 1 then
        if fresh then i :: s.argumentsOn depth false path else s.argumentsOn depth ((s.lexeme (some i)).kind = .comma) path
      else s.argumentsOn depth fresh path := by
  rw [argumentsOn]
  simp only [h]
  rfl

/-- Along a path that starts inside an argument, the scan finds the first lexemes of the parts behind it; along one that starts directly
inside the parentheses with a new argument, it finds those of all parts. -/
theorem argumentsOn_eq (hlast : opened.getLast? = some .call) (hdepths : s.DepthsFollow depth opened path) :
    (NonemptyButLast (s.partsAlong opened path).tail →
      s.argumentsOn depth false path = (s.partsAlong opened path).tail.filterMap List.head?) ∧
    (opened.length = 1 → NonemptyButLast (s.partsAlong opened path) →
      s.argumentsOn depth true path = (s.partsAlong opened path).filterMap List.head?) := by
  induction path generalizing opened with
  | nil => exact ⟨fun _ => rfl, fun _ _ => rfl⟩
  | cons i path ih =>
    have hstops := stopsArguments_iff hlast hdepths
    by_cases hends : s.EndsArguments opened i
    · rw [partsAlong_of_ends hends]
      simp [argumentsOn, hstops.2 hends]
    have hscan := argumentsOn_cons (mt hstops.1 hends)
    obtain ⟨hdepth, hne, hrest⟩ := hdepths.next hends
    have hcall : (s.nestAt opened i).getLast? = some .call := Kind.getLast?_nest hlast hne
    obtain ⟨hinside, hfresh⟩ := ih hcall hrest
    by_cases hcomma : (s.lexeme (some i)).kind = .comma ∧ opened.length = 1
    · rw [nestAt_comma hcomma.1] at hdepth hfresh
      rw [partsAlong_comma hends hcomma]
      refine ⟨fun hnonempty => ?_, fun _ hnonempty => ?_⟩
      · have hone : (s.lexeme (some i)).depth = depth + 1 := by omega
        rw [hscan, if_pos hone, if_neg Bool.false_ne_true, decide_eq_true hcomma.1]
        exact hfresh hcomma.2 hnonempty
      · -- The part in front of the comma is empty, and not the last one.
        obtain ⟨part, parts, hnext⟩ := exists_argumentParts_eq s opened (s.argumentList opened path)
        rw [partsAlong, hnext] at hnonempty
        exact absurd rfl (hnonempty [] List.mem_cons_self)
    · obtain ⟨part, parts, hnext, hparts⟩ := partsAlong_cons hends hcomma path
      rw [hnext, List.tail_cons] at hinside
      rw [hparts, List.tail_cons]
      refine ⟨fun hnonempty => ?_, fun hopened hnonempty => ?_⟩
      · rw [hscan, if_neg Bool.false_ne_true]
        split_ifs with hone
        · -- A comma at this depth would stand directly inside the parentheses.
          have hkind : (s.lexeme (some i)).kind ≠ .comma := by
            intro hk
            rw [nestAt_comma hk] at hdepth
            exact hcomma ⟨hk, by omega⟩
          rw [decide_eq_false hkind]
          exact hinside hnonempty
        · exact hinside hnonempty
      · have hpos := List.length_pos_of_ne_nil hne
        have hone : (s.lexeme (some i)).depth = depth + 1 := by omega
        rw [hscan, if_pos hone, if_pos rfl, hinside hnonempty.tail]
        rfl

/-- The opening parenthesis of a call is found. -/
theorem OpeningOf.openingOf_eq (h : s.OpeningOf i o) (hs : s.WellLinked) (hi : i ∈ s.order) : s.openingOf i = some o := by
  cases hfound : s.openingOf i with
  | none =>
    have hmem : o ∈ s.after i := (hs.mem_after_iff hi).2 ⟨h.mem, h.behind⟩
    have hnot := List.find?_eq_none.1 hfound o hmem
    simp [h.kind, h.depth] at hnot
  | some k =>
    have hspec := openingOf_spec hs hi hfound
    have hle := hspec.first o h.mem h.behind h.kind h.depth
    have hge := h.first k hspec.mem hspec.behind hspec.kind hspec.depth
    exact congrArg some (hs.placeOf_inj hspec.mem h.mem (Nat.le_antisymm hle hge))

/-- The scan for the arguments of a call finds the first lexeme of each part between the commas directly inside its parentheses, as far
as they stand on its line and in its statement, if depths follow the brackets there and no part is empty in front of the last one. -/
theorem argumentStarts_parts (hs : s.WellLinked) (hi : i ∈ s.order) (ho : s.OpeningOf i o)
    (hdepths : s.DepthsFollow (s.lexeme (some i)).depth [.call] (s.after o))
    (hparts : NonemptyButLast (s.partsAlong [.call] (s.after o))) :
    s.argumentStarts (some i) = (s.partsAlong [.call] (s.after o)).filterMap List.head? := by
  rw [argumentStarts_eq (ho.openingOf_eq hs hi)]
  exact (argumentsOn_eq rfl hdepths).2 rfl hparts

namespace ArgumentsAux

/-- A lexeme of a kind at a depth. -/
def lexemeOf (kind : Kind) (depth : Int) : Lexeme := { kind, text := [], depth }

/-- A call with a name, a call with a comment in front of it and a list in brackets as its arguments, and another one on the next
line. -/
def nestedCall : Strand := .ofLexemes "c"
  [lexemeOf .callName 0, lexemeOf (.opening .call) 0, lexemeOf .word 1, lexemeOf .comma 1, lexemeOf .comment 1,
    lexemeOf .callName 1, lexemeOf (.opening .call) 1, lexemeOf .word 2, lexemeOf .comma 2, lexemeOf .word 2,
    lexemeOf (.closing .call) 1, lexemeOf .comma 1, lexemeOf (.opening .brace) 1, lexemeOf .integer 2, lexemeOf .comma 2,
    lexemeOf (.closing .brace) 1, lexemeOf .comma 1, lexemeOf .newline 1, lexemeOf .word 1, lexemeOf (.closing .call) 0]

theorem openingOf_nestedCall : nestedCall.OpeningOf 0 1 :=
  ⟨by decide, by decide, by decide, by decide, by decide +kernel⟩

end ArgumentsAux

open ArgumentsAux in
theorem argumentStarts_parts_nestedCall : nestedCall.WellLinked ∧ 0 ∈ nestedCall.order ∧ nestedCall.OpeningOf 0 1 ∧
    nestedCall.DepthsFollow 0 [.call] (nestedCall.after 1) ∧ NonemptyButLast (nestedCall.partsAlong [.call] (nestedCall.after 1)) ∧
    nestedCall.partsAlong [.call] (nestedCall.after 1) = [[2], [4, 5, 6, 7, 8, 9, 10], [12, 13, 14, 15], []] ∧
    nestedCall.argumentStarts (some 0) = [2, 4, 12] := by
  have hlinked : nestedCall.WellLinked := wellLinked_ofLexemes _ _
  have hmem : 0 ∈ nestedCall.order := by decide
  have hdepths : nestedCall.DepthsFollow 0 [.call] (nestedCall.after 1) := by decide +kernel
  have hparts : nestedCall.partsAlong [.call] (nestedCall.after 1) = [[2], [4, 5, 6, 7, 8, 9, 10], [12, 13, 14, 15], []] := by
    decide +kernel
  have hnonempty : NonemptyButLast (nestedCall.partsAlong [.call] (nestedCall.after 1)) := by
    rw [hparts]
    decide
  refine ⟨hlinked, hmem, openingOf_nestedCall, hdepths, hnonempty, hparts, ?_⟩
  rw [argumentStarts_parts hlinked hmem openingOf_nestedCall hdepths hnonempty, hparts]
  rfl

end Strand

end CodeGroom
