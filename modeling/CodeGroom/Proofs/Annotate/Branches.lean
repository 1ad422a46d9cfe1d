import CodeGroom.Proofs.Annotate.Closers
import Mathlib.Data.Nat.Find

/-!
# Conditional directives and the open brackets

The directives of a source open groups and end them, and within a group each `#else` starts another branch. Where every branch
and every end belongs to an open group, a branch starts with the brackets that were open in front of the group, the group leaves
those open that were open at the end of its first branch, and every lexeme counts the groups around it. What the branches hold,
brackets that match nothing and further groups included, makes no difference.
-/

namespace CodeGroom

/-- The name of the directive that an event reports. -/
def Event.directive? : Event → Option Text
  | .directiveRead word _ _ => some word
  | _ => none

/-- Whether a lexeme belongs to a directive, and how many groups it counts around it. -/
def Lexeme.nesting (x : Lexeme) : Bool × Int := (x.inDirective, x.branchDepth)

namespace Annotator

variable {src : Source} {a b c : Annotator} {word : Text}

/-- The names of the directives read so far, in their order. -/
def directives (a : Annotator) : List Text := (a.trace.filterMap Event.directive?).reverse

/-- The number of open groups behind a directive, `n` being the number in front of it. -/
def groupsBehind (n : Nat) (word : Text) : Nat :=
  if opensBranches word then n + 1 else if endsBranches word then n - 1 else n

/-- The number of groups that are open behind some directives. -/
def openGroups (words : List Text) : Nat := words.foldl groupsBehind 0

/-- Whether a directive belongs to a group that another one opens: it starts a branch or ends the group. -/
def continuesGroup (word : Text) : Bool := startsBranch word || endsBranches word

/-- Every branch and every end belongs to a group that is open there. -/
def ProperlyNested (words : List Text) : Prop :=
  ∀ i, (h : i < words.length) → continuesGroup words[i] = true → 0 < openGroups (words.take i)

instance (words : List Text) : Decidable (ProperlyNested words) :=
  inferInstanceAs (Decidable (∀ i, (h : i < words.length) → continuesGroup words[i] = true → 0 < openGroups (words.take i)))

/-- One more directive opens a group, goes on with one, ends one, or does nothing to groups. -/
theorem openGroups_concat (words : List Text) (word : Text) :
    openGroups (words ++ [word]) = groupsBehind (openGroups words) word := by
  rw [openGroups, List.foldl_concat, ← openGroups]

/-- Where a directive goes on with a group one is open. -/
theorem ProperlyNested.pos {p q words : List Text} (h : ProperlyNested words) (hwords : words = p ++ word :: q)
    (hword : continuesGroup word = true) : 0 < openGroups p := by
  subst hwords
  have hpos := h p.length (by simp)
  rw [List.getElem_append_right (Nat.le_refl _), List.take_left' rfl] at hpos
  simpa using hpos (by simpa using hword)

/-! A directive does one of these: it opens a group, starts a branch or ends a group. -/

/-- What opens a group starts no further branch. -/
theorem startsBranch_of_opensBranches (h : opensBranches word = true) : startsBranch word = false := by
  rw [Bool.eq_false_iff]
  intro hstarts
  have hmem : word ∈ ["else", "elif", "elifdef", "elifndef"].map Text.ofString := List.contains_iff_mem.1 hstarts
  have hnone : ∀ w ∈ ["else", "elif", "elifdef", "elifndef"].map Text.ofString, opensBranches w = false := by decide
  rw [hnone word hmem] at h
  cases h

/-- What starts a further branch opens no group. -/
theorem opensBranches_of_startsBranch (h : startsBranch word = true) : opensBranches word = false := by
  rw [Bool.eq_false_iff]
  intro hopens
  rw [startsBranch_of_opensBranches hopens] at h
  cases h

/-- What starts a further branch ends no group. -/
theorem endsBranches_of_startsBranch (h : startsBranch word = true) : endsBranches word = false := by
  have hmem : word ∈ ["else", "elif", "elifdef", "elifndef"].map Text.ofString := List.contains_iff_mem.1 h
  have hnone : ∀ w ∈ ["else", "elif", "elifdef", "elifndef"].map Text.ofString, endsBranches w = false := by decide
  exact hnone word hmem

/-- What ends a group opens none. -/
theorem opensBranches_of_endsBranches (h : endsBranches word = true) : opensBranches word = false := by
  rw [of_decide_eq_true h]
  decide

/-- What ends a group starts no further branch. -/
theorem startsBranch_of_endsBranches (h : endsBranches word = true) : startsBranch word = false := by
  rw [of_decide_eq_true h]
  decide

theorem groupsBehind_opens (n : Nat) (h : opensBranches word = true) : groupsBehind n word = n + 1 := if_pos h

theorem groupsBehind_starts (n : Nat) (h : startsBranch word = true) : groupsBehind n word = n := by
  simp [groupsBehind, opensBranches_of_startsBranch h, endsBranches_of_startsBranch h]

theorem groupsBehind_ends (n : Nat) (h : endsBranches word = true) : groupsBehind n word = n - 1 := by
  simp [groupsBehind, opensBranches_of_endsBranches h, h]

theorem groupsBehind_other (n : Nat) (h : opensBranches word = false) (h' : continuesGroup word = false) :
    groupsBehind n word = n := by
  simp only [continuesGroup, Bool.or_eq_false_iff] at h'
  simp [groupsBehind, h, h'.2]

/-! What the name of a directive does to the branches and the open brackets. -/

/-- A directive that opens a group saves what is open. -/
theorem enterDirective_opens (h : opensBranches word = true) (a : Annotator) :
    a.enterDirective word = { a with branches := { saved := a.opened } :: a.branches } := if_pos h

/-- A directive that starts a further branch goes back to what was open at the start of the group. -/
theorem enterDirective_starts (h : startsBranch word = true) {f : Branch} {fs : List Branch} (hbranches : a.branches = f :: fs) :
    a.enterDirective word = { a with
      branches := { f with firstBranch := some (f.firstBranch.getD a.opened) } :: fs
      opened := f.saved
      branchDepth := a.branchDepth - 1 } := by
  rw [enterDirective, opensBranches_of_startsBranch h, if_neg Bool.false_ne_true, if_pos h, hbranches]

/-- A directive that ends a group goes on with what the first branch left open. -/
theorem enterDirective_ends (h : endsBranches word = true) {f : Branch} {fs : List Branch} (hbranches : a.branches = f :: fs) :
    a.enterDirective word =
      { a with branches := fs, opened := f.firstBranch.getD a.opened, branchDepth := a.branchDepth - 1 } := by
  rw [enterDirective, opensBranches_of_endsBranches h, if_neg Bool.false_ne_true, startsBranch_of_endsBranches h,
    if_neg Bool.false_ne_true, if_pos h, hbranches]

theorem continuesGroup_of_opensBranches (h : opensBranches word = true) : continuesGroup word = false := by
  rw [continuesGroup, startsBranch_of_opensBranches h, Bool.false_or, Bool.eq_false_iff]
  intro hends
  rw [opensBranches_of_endsBranches hends] at h
  cases h

/-- Any other directive does nothing to brackets. -/
theorem enterDirective_other (h : opensBranches word = false) (h' : continuesGroup word = false) (a : Annotator) :
    a.enterDirective word = a := by
  simp only [continuesGroup, Bool.or_eq_false_iff] at h'
  simp [enterDirective, h, h'.1, h'.2]

/-- A directive leaves as many branches open as there are groups behind it. -/
theorem length_branches_enterDirective (word : Text) (a : Annotator) :
    (a.enterDirective word).branches.length = groupsBehind a.branches.length word := by
  cases hopens : opensBranches word with
  | true => rw [enterDirective_opens hopens, groupsBehind_opens _ hopens, List.length_cons]
  | false =>
    cases hcontinues : continuesGroup word with
    | false => rw [enterDirective_other hopens hcontinues, groupsBehind_other _ hopens hcontinues]
    | true =>
      rcases Bool.or_eq_true_iff.1 hcontinues with hstarts | hends
      · rw [groupsBehind_starts _ hstarts]
        cases hbranches : a.branches with
        | nil => simp [enterDirective, hopens, hstarts, hbranches]
        | cons f fs => rw [enterDirective_starts hstarts hbranches, List.length_cons, List.length_cons]
      · rw [groupsBehind_ends _ hends]
        cases hbranches : a.branches with
        | nil => simp [enterDirective, hopens, startsBranch_of_endsBranches hends, hends, hbranches]
        | cons f fs => rw [enterDirective_ends hends hbranches, List.length_cons, Nat.add_sub_cancel]

/-! ## Reading between directives -/

/-- From the first state to the second one no directive was read: the branches stay, what is read anew is in no directive and
counts as many groups as there were. -/
structure BetweenDirectives (a b : Annotator) : Prop where
  branches : b.branches = a.branches
  branchDepth : b.branchDepth = a.branchDepth
  directives : b.directives = a.directives
  lexemes : ∃ new, b.lexemes.map (·.nesting) = new ++ a.lexemes.map (·.nesting) ∧ ∀ m ∈ new, m = (false, (a.branchDepth : Int))

theorem BetweenDirectives.refl (a : Annotator) : BetweenDirectives a a := ⟨rfl, rfl, rfl, [], rfl, by simp⟩

/-- What lies between directives may be followed by more of it. -/
theorem BetweenDirectives.trans (h : BetweenDirectives a b) (h' : BetweenDirectives b c) : BetweenDirectives a c := by
  obtain ⟨new, hlex, hnew⟩ := h.lexemes
  obtain ⟨new', hlex', hnew'⟩ := h'.lexemes
  refine ⟨h'.branches.trans h.branches, h'.branchDepth.trans h.branchDepth, h'.directives.trans h.directives, new' ++ new,
    by rw [hlex', hlex, List.append_assoc], ?_⟩
  intro m hm
  rcases List.mem_append.1 hm with hm | hm
  · rw [← h.branchDepth]
    exact hnew' m hm
  · exact hnew m hm

/-- Adding a lexeme of code, whatever becomes of the brackets. -/
theorem BetweenDirectives.add {kind owner : Kind} (start : Nat) (text : Text) (hbranches : b.branches = a.branches)
    (hdepth : b.branchDepth = a.branchDepth) (hdirectives : b.directives = a.directives) (hlex : b.lexemes = a.lexemes) :
    BetweenDirectives a (b.add src kind start text owner false) where
  branches := hbranches
  branchDepth := hdepth
  directives := hdirectives
  lexemes := by
    refine ⟨[(false, (a.branchDepth : Int))], ?_, by simp⟩
    rw [← hdepth, ← hlex]
    rfl

/-- Changing a lexeme where its place in the groups stays. -/
theorem BetweenDirectives.change {p q : List Lexeme} {x y : Lexeme} (ha : a.lexemes = p ++ x :: q)
    (hb : b.lexemes = p ++ y :: q) (hnesting : y.nesting = x.nesting) (hbranches : b.branches = a.branches)
    (hdepth : b.branchDepth = a.branchDepth) (htrace : b.trace = a.trace) : BetweenDirectives a b where
  branches := hbranches
  branchDepth := hdepth
  directives := congrArg (fun t => (t.filterMap Event.directive?).reverse) htrace
  lexemes := ⟨[], by simp [ha, hb, hnesting], by simp⟩

/-- A step in code is no directive. -/
theorem CodeStep.betweenDirectives (h : CodeStep src a b) : BetweenDirectives a b := by
  cases h with
  | plain start text _ _ => exact .add start text rfl rfl rfl rfl
  | opening bracket start text owner _ =>
    have hadd : BetweenDirectives a (a.add src (.opening bracket) start text owner false) := .add start text rfl rfl rfl rfl
    exact ⟨hadd.branches, hadd.branchDepth, hadd.directives, hadd.lexemes⟩
  | @closing fits alone start text _ _ =>
    rcases closeBracket_cases src fits alone start text a with ⟨-, hread⟩ | ⟨inner, o, outer, c, -, -, -, hc, hread⟩
    · rw [hread]
      exact .add start text rfl rfl rfl rfl
    · rw [hread]
      rcases hc with rfl | ⟨n, rfl⟩
      · exact .add start text rfl rfl rfl rfl
      · exact .add start text rfl rfl rfl rfl
  | @retyped kind hword _ =>
    obtain ⟨p, x, q, hlex, hlex', -⟩ := exists_retype kind hword
    exact .change hlex hlex' rfl rfl rfl rfl
  | lengthened covered hlex _ => exact .change (p := []) hlex rfl rfl rfl rfl rfl
  | asked questions => exact ⟨rfl, rfl, rfl, [], rfl, by simp⟩

/-- And neither are several steps. -/
theorem CodeSteps.betweenDirectives (h : CodeSteps src a b) : BetweenDirectives a b := by
  induction h with
  | refl => exact .refl a
  | tail _ hstep ih => exact ih.trans hstep.betweenDirectives

/-! ## Reading a directive -/

/-- From the first state to the second one a directive of some name was read. -/
structure EntersDirective (word : Text) (a b : Annotator) : Prop where
  opened : b.opened = (a.enterDirective word).opened
  branches : b.branches = (a.enterDirective word).branches
  branchDepth : b.branchDepth =
    (a.enterDirective word).branchDepth + if opensBranches word || startsBranch word then 1 else 0
  directives : b.directives = a.directives ++ [word]
  lexemes : ∃ new, b.lexemes.map (·.nesting) = new ++ a.lexemes.map (·.nesting) ∧ ∀ m ∈ new, m.1 = true

/-- The lines of a directive stay in their branch. -/
theorem branchDepth_directiveLines (src : Source) (ls : List Text) (pos : Nat) (a : Annotator) :
    (directiveLines src pos ls a).branchDepth = a.branchDepth := by
  induction ls generalizing pos a with
  | nil => rfl
  | cons l ls ih =>
    unfold directiveLines
    dsimp only
    split_ifs
    · exact ih _ _
    · exact ih _ _
    · rfl
    · rfl

/-- A directive is entered by its word. -/
theorem entersDirective (src : Source) (start : Nat) (a : Annotator) :
    EntersDirective (wordAt src start) a (a.directive src start) := by
  obtain ⟨b, hadds, -, hopened, hbranches, line, depth, htrace⟩ := addsDirective_directive src start a
  obtain ⟨new, hlex, hdir⟩ := exists_new_directive src start a
  obtain ⟨-, htrace'⟩ := enterDirective_leaves (wordAt src start) a
  refine ⟨hopened.trans hadds.opened, hbranches.trans hadds.branches, ?_, ?_, new.map (·.nesting), ?_, ?_⟩
  · have hlines := branchDepth_directiveLines src (Text.lines (src.text.drop start)) start (a.enterDirective (wordAt src start))
    unfold directive
    dsimp only
    rw [wordAt] at hlines ⊢
    split_ifs
    · exact congrArg (· + 1) hlines
    · exact hlines
  · rw [directives, htrace, hadds.trace, htrace', List.filterMap_cons_some (f := Event.directive?) rfl, List.reverse_cons,
      ← directives]
  · rw [hlex, List.map_append]
  · intro m hm
    obtain ⟨x, hx, rfl⟩ := List.mem_map.1 hm
    exact (hdir x hx).inDirective

/-- Reading a token reads a directive, or stays between two of them. -/
theorem between_or_enters_token (src : Source) {t : Token} (ht : t.text ≠ []) (a : Annotator) :
    BetweenDirectives a (token src a t) ∨ ∃ word, EntersDirective word a (token src a t) := by
  rcases directive_or_steps_token src ht a with ⟨-, hread⟩ | hcode
  · rw [hread]
    exact .inr ⟨_, entersDirective src (hashPlace t) a⟩
  · exact .inl hcode.betweenDirectives

end Annotator

namespace Source

open Annotator

variable {src : Source} {ts : List Token} {m n k j : Nat} {word : Text}

/-- The state in front of the `n`-th token, counted from 0. -/
def moment (src : Source) (ts : List Token) (n : Nat) : Annotator :=
  ({} : Annotator).tokens src ((Token.mergeRuns (Token.cutLines ts)).take n)

/-- The number of groups that are open in front of the `n`-th token. -/
def groups (src : Source) (ts : List Token) (n : Nat) : Nat := openGroups (src.moment ts n).directives

/-- The name of the directive that is read at the `n`-th token. -/
def directiveAt (src : Source) (ts : List Token) (n : Nat) : Option Text :=
  ((src.moment ts (n + 1)).directives.drop (src.moment ts n).directives.length).head?

/-- A directive at the `n`-th token starts a branch of the group that a directive at the `m`-th token opens, or ends that group:
the group stays open in between, and no group inside it is open there. -/
structure InGroup (src : Source) (ts : List Token) (m n : Nat) : Prop where
  opens : (src.directiveAt ts m).any opensBranches = true
  continues : (src.directiveAt ts n).any continuesGroup = true
  behind : m < n
  inside : ∀ k ≤ n, m < k → src.groups ts m < src.groups ts k
  innermost : src.groups ts n = src.groups ts m + 1

instance (src : Source) (ts : List Token) (m n : Nat) : Decidable (src.InGroup ts m n) :=
  decidable_of_iff
    (((src.directiveAt ts m).any opensBranches = true ∧ (src.directiveAt ts n).any continuesGroup = true) ∧ m < n ∧
      (∀ k ≤ n, m < k → src.groups ts m < src.groups ts k) ∧ src.groups ts n = src.groups ts m + 1)
    ⟨fun ⟨⟨h₁, h₂⟩, h₃, h₄, h₅⟩ => ⟨h₁, h₂, h₃, h₄, h₅⟩, fun ⟨h₁, h₂, h₃, h₄, h₅⟩ => ⟨⟨h₁, h₂⟩, h₃, h₄, h₅⟩⟩

/-- Behind the last piece everything has been read. -/
theorem moment_of_length_le (h : (Token.mergeRuns (Token.cutLines ts)).length ≤ n) : src.moment ts n = src.annotate ts := by
  rw [moment, List.take_of_length_le h, annotate]

/-- From one token to the next a directive is read, or none is. -/
theorem between_or_enters (src : Source) (ts : List Token) (n : Nat) :
    BetweenDirectives (src.moment ts n) (src.moment ts (n + 1)) ∨
      ∃ word, EntersDirective word (src.moment ts n) (src.moment ts (n + 1)) := by
  by_cases hn : n < (Token.mergeRuns (Token.cutLines ts)).length
  · have hnext : src.moment ts (n + 1) = token src (src.moment ts n) (Token.mergeRuns (Token.cutLines ts))[n] := by
      rw [moment, List.take_add_one, List.getElem?_eq_getElem hn, Option.toList_some, tokens, List.foldl_concat, moment, tokens]
    rw [hnext]
    exact between_or_enters_token src (Token.text_ne_nil_of_mem_pieces _ (List.getElem_mem hn)) _
  · have hlast := Nat.not_lt.1 hn
    rw [moment_of_length_le hlast, moment_of_length_le (Nat.le_succ_of_le hlast)]
    exact .inl (.refl _)

/-- Between directives there is none. -/
theorem directiveAt_of_between (h : BetweenDirectives (src.moment ts n) (src.moment ts (n + 1))) :
    src.directiveAt ts n = none := by
  rw [directiveAt, h.directives, List.drop_length, List.head?_nil]

/-- A directive that is entered is there. -/
theorem directiveAt_of_enters (h : EntersDirective word (src.moment ts n) (src.moment ts (n + 1))) :
    src.directiveAt ts n = some word := by
  rw [directiveAt, h.directives, List.drop_left, List.head?_cons]

/-- A directive at a token is entered there. -/
theorem enters_of_directiveAt (h : src.directiveAt ts n = some word) :
    EntersDirective word (src.moment ts n) (src.moment ts (n + 1)) := by
  rcases between_or_enters src ts n with hbetween | ⟨word', henters⟩
  · rw [directiveAt_of_between hbetween] at h
    cases h
  · rw [directiveAt_of_enters henters] at h
    exact Option.some.inj h ▸ henters

/-- Between directives the groups that are open stay. -/
theorem groups_succ_of_between (h : BetweenDirectives (src.moment ts n) (src.moment ts (n + 1))) :
    src.groups ts (n + 1) = src.groups ts n := by
  rw [groups, h.directives, groups]

/-- A directive does to groups what its word says. -/
theorem groups_succ_of_enters (h : EntersDirective word (src.moment ts n) (src.moment ts (n + 1))) :
    src.groups ts (n + 1) = groupsBehind (src.groups ts n) word := by
  rw [groups, h.directives, openGroups_concat, groups]

/-- As many branches are kept as there are groups open. -/
theorem length_branches_moment (src : Source) (ts : List Token) (n : Nat) :
    (src.moment ts n).branches.length = src.groups ts n := by
  induction n with
  | zero => rfl
  | succ n ih =>
    rcases between_or_enters src ts n with hbetween | ⟨word, henters⟩
    · rw [hbetween.branches, groups_succ_of_between hbetween, ih]
    · rw [henters.branches, length_branches_enterDirective, groups_succ_of_enters henters, ih]

/-- What is read later leaves the directives read so far. -/
theorem directives_prefix_moment (src : Source) (ts : List Token) (h : n ≤ m) :
    (src.moment ts n).directives <+: (src.moment ts m).directives := by
  induction m, h using Nat.le_induction with
  | base => exact List.prefix_rfl
  | succ m _ ih =>
    rcases between_or_enters src ts m with hbetween | ⟨word, henters⟩
    · rwa [hbetween.directives]
    · rw [henters.directives]
      exact ih.trans (List.prefix_append _ _)

/-- Directives are read in their order. -/
theorem directives_prefix_annotate (src : Source) (ts : List Token) (n : Nat) :
    (src.moment ts n).directives <+: (src.annotate ts).directives := by
  have hend : src.moment ts (max n (Token.mergeRuns (Token.cutLines ts)).length) = src.annotate ts :=
    moment_of_length_le (Nat.le_max_right _ _)
  rw [← hend]
  exact directives_prefix_moment src ts (Nat.le_max_left _ _)

/-- Where directives are properly nested, a branch or an end stands in an open group. -/
theorem groups_pos (hnested : ProperlyNested (src.annotate ts).directives)
    (h : EntersDirective word (src.moment ts n) (src.moment ts (n + 1))) (hword : continuesGroup word = true) :
    0 < src.groups ts n := by
  obtain ⟨rest, hrest⟩ := directives_prefix_annotate src ts (n + 1)
  rw [h.directives, List.append_assoc, List.singleton_append] at hrest
  exact hnested.pos hrest.symm hword

/-- Where directives are properly nested, the reader counts the open groups. -/
theorem branchDepth_moment (hnested : ProperlyNested (src.annotate ts).directives) (n : Nat) :
    (src.moment ts n).branchDepth = src.groups ts n := by
  induction n with
  | zero => rfl
  | succ n ih =>
    rcases between_or_enters src ts n with hbetween | ⟨word, henters⟩
    · rw [hbetween.branchDepth, groups_succ_of_between hbetween, ih]
    · rw [henters.branchDepth, groups_succ_of_enters henters]
      cases hopens : opensBranches word with
      | true => simp [enterDirective_opens hopens, groupsBehind_opens _ hopens, ih]
      | false =>
        cases hcontinues : continuesGroup word with
        | false =>
          rw [enterDirective_other hopens hcontinues, groupsBehind_other _ hopens hcontinues, ih]
          simp [(Bool.or_eq_false_iff.1 hcontinues).1]
        | true =>
          have hpos := groups_pos hnested henters hcontinues
          obtain ⟨f, fs, hbranches⟩ : ∃ f fs, (src.moment ts n).branches = f :: fs := by
            rw [← length_branches_moment] at hpos
            exact List.exists_cons_of_length_pos hpos
          rcases Bool.or_eq_true_iff.1 hcontinues with hstarts | hends
          · rw [enterDirective_starts hstarts hbranches, groupsBehind_starts _ hstarts, hstarts, ih]
            exact Nat.sub_add_cancel hpos
          · rw [enterDirective_ends hends hbranches, groupsBehind_ends _ hends, startsBranch_of_endsBranches hends, ih]
            rfl

/-! ## The branch of a group -/

/-- A token at which the first branch of a group ends: it is the first one that continues the group. -/
def EndsFirstBranch (src : Source) (ts : List Token) (m k : Nat) : Prop :=
  src.InGroup ts m k ∧ ∀ j < k, ¬src.InGroup ts m j

instance (src : Source) (ts : List Token) (m k : Nat) : Decidable (src.EndsFirstBranch ts m k) :=
  inferInstanceAs (Decidable (_ ∧ ∀ j < k, ¬src.InGroup ts m j))

/-- What is kept for a group that the `m`-th token opens while it is open: the brackets in front of the group, and those at the
end of the first branch once that has ended. -/
structure Keeps (src : Source) (ts : List Token) (m n : Nat) (f : Branch) : Prop where
  saved : f.saved = (src.moment ts m).opened
  firstBranch : (f.firstBranch = none ∧ ∀ j < n, ¬src.InGroup ts m j) ∨
    ∃ k < n, src.EndsFirstBranch ts m k ∧ f.firstBranch = some (src.moment ts k).opened

/-- A token that does not continue the group leaves what is kept for it. -/
theorem Keeps.succ {f : Branch} (h : src.Keeps ts m n f) (hn : ¬src.InGroup ts m n) : src.Keeps ts m (n + 1) f where
  saved := h.saved
  firstBranch := by
    rcases h.firstBranch with ⟨hnone, hbefore⟩ | ⟨k, hk, hfirst⟩
    · refine .inl ⟨hnone, fun j hj => ?_⟩
      rcases Nat.lt_succ_iff_lt_or_eq.1 hj with hj | rfl
      · exact hbefore j hj
      · exact hn
    · exact .inr ⟨k, Nat.lt_succ_of_lt hk, hfirst⟩

/-- The brackets kept for the first branch are those at its end. -/
theorem Keeps.firstBranch_getD {f : Branch} (h : src.Keeps ts m n f) (hk : src.EndsFirstBranch ts m k)
    (hn : src.InGroup ts m n) : f.firstBranch.getD (src.moment ts n).opened = (src.moment ts k).opened := by
  rcases h.firstBranch with ⟨hnone, hbefore⟩ | ⟨k', hk', hfirst, hsome⟩
  · have hkn : k = n := by
      rcases Nat.lt_trichotomy k n with hlt | heq | hgt
      · exact absurd hk.1 (hbefore k hlt)
      · exact heq
      · exact absurd hn (hk.2 n hgt)
    rw [hnone, hkn, Option.getD_none]
  · have hkk : k = k' := by
      rcases Nat.lt_trichotomy k k' with hlt | heq | hgt
      · exact absurd hk.1 (hfirst.2 k hlt)
      · exact heq
      · exact absurd hfirst.1 (hk.2 k' hgt)
    rw [hsome, hkk, Option.getD_some]

theorem not_inGroup_of_between (h : BetweenDirectives (src.moment ts n) (src.moment ts (n + 1))) : ¬src.InGroup ts m n := by
  intro hin
  have hcontinues := hin.continues
  rw [directiveAt_of_between h] at hcontinues
  cases hcontinues

theorem not_inGroup_of_enters (h : EntersDirective word (src.moment ts n) (src.moment ts (n + 1)))
    (hword : continuesGroup word = false) : ¬src.InGroup ts m n := by
  intro hin
  have hcontinues := hin.continues
  rw [directiveAt_of_enters h, Option.any_some, hword] at hcontinues
  cases hcontinues

/-- The branch `f` is kept for the group that the `m`-th token opens: it lies right upon those of the groups around it and below
those of the groups inside it. -/
structure Holds (src : Source) (ts : List Token) (m n : Nat) (inner : List Branch) (f : Branch) : Prop where
  branches : (src.moment ts n).branches = inner ++ f :: (src.moment ts m).branches
  keeps : src.Keeps ts m n f

/-- As many groups are open as the reader holds. -/
theorem Holds.groups_eq {inner : List Branch} {f : Branch} (h : src.Holds ts m n inner f) :
    src.groups ts n = inner.length + 1 + src.groups ts m := by
  rw [← length_branches_moment, h.branches, List.length_append, List.length_cons, length_branches_moment]
  omega

/-- A directive that continues a group inside leaves the branch kept for the group around it. -/
theorem Holds.continues_inside {inner : List Branch} {f g : Branch} (h : src.Holds ts m n (g :: inner) f)
    (henters : EntersDirective word (src.moment ts n) (src.moment ts (n + 1))) (hword : continuesGroup word = true) :
    ∃ inner', src.Holds ts m (n + 1) inner' f := by
  have hnot : ¬src.InGroup ts m n := fun hin => by
    have hlevel := hin.innermost
    rw [h.groups_eq, List.length_cons] at hlevel
    omega
  rcases Bool.or_eq_true_iff.1 hword with hstarts | hends
  · refine ⟨{ g with firstBranch := some (g.firstBranch.getD (src.moment ts n).opened) } :: inner, ?_, h.keeps.succ hnot⟩
    rw [henters.branches, enterDirective_starts hstarts h.branches]
    rfl
  · refine ⟨inner, ?_, h.keeps.succ hnot⟩
    rw [henters.branches, enterDirective_ends hends h.branches]
    rfl

/-- At a further branch of the group the end of its first branch is kept, unless it has been before. -/
theorem Holds.starts {f : Branch} (h : src.Holds ts m n [] f)
    (henters : EntersDirective word (src.moment ts n) (src.moment ts (n + 1))) (hword : startsBranch word = true)
    (hin : src.InGroup ts m n) : ∃ f', src.Holds ts m (n + 1) [] f' := by
  refine ⟨{ f with firstBranch := some (f.firstBranch.getD (src.moment ts n).opened) }, ?_, h.keeps.saved, ?_⟩
  · rw [henters.branches, enterDirective_starts hword h.branches]
    rfl
  · rcases h.keeps.firstBranch with ⟨hnone, hbefore⟩ | ⟨k, hk, hfirst, hsome⟩
    · exact .inr ⟨n, Nat.lt_succ_self n, ⟨hin, hbefore⟩, by rw [hnone, Option.getD_none]⟩
    · exact .inr ⟨k, Nat.lt_succ_of_lt hk, hfirst, by rw [hsome, Option.getD_some]⟩

/-- The next token keeps a branch for the group, unless it closes the group. -/
theorem Holds.succ {inner : List Branch} {f : Branch} (h : src.Holds ts m n inner f)
    (hin : ∀ word, src.directiveAt ts n = some word → continuesGroup word = true → inner = [] → src.InGroup ts m n)
    (hopen : src.groups ts m < src.groups ts (n + 1)) : ∃ inner' f', src.Holds ts m (n + 1) inner' f' := by
  rcases between_or_enters src ts n with hbetween | ⟨word, henters⟩
  · exact ⟨inner, f, hbetween.branches.trans h.branches, h.keeps.succ (not_inGroup_of_between hbetween)⟩
  · cases hopens : opensBranches word with
    | true =>
      have hnot : ¬src.InGroup ts m n := not_inGroup_of_enters henters (continuesGroup_of_opensBranches hopens)
      refine ⟨{ saved := (src.moment ts n).opened } :: inner, f, ?_, h.keeps.succ hnot⟩
      rw [henters.branches, enterDirective_opens hopens, h.branches]
      rfl
    | false =>
      cases hcontinues : continuesGroup word with
      | false =>
        refine ⟨inner, f, ?_, h.keeps.succ (not_inGroup_of_enters henters hcontinues)⟩
        rw [henters.branches, enterDirective_other hopens hcontinues, h.branches]
      | true =>
        cases inner with
        | cons g inner =>
          obtain ⟨inner', hholds⟩ := h.continues_inside henters hcontinues
          exact ⟨inner', f, hholds⟩
        | nil =>
          have hlevel := h.groups_eq
          rcases Bool.or_eq_true_iff.1 hcontinues with hstarts | hends
          · obtain ⟨f', hholds⟩ := h.starts henters hstarts (hin word (directiveAt_of_enters henters) hcontinues rfl)
            exact ⟨[], f', hholds⟩
          · rw [groups_succ_of_enters henters, groupsBehind_ends _ hends, hlevel, List.length_nil] at hopen
            omega

/-- While a group is open, a branch is kept for it. -/
theorem exists_holds (hm : (src.directiveAt ts m).any opensBranches = true) (hmn : m < n)
    (hopen : ∀ k ≤ n, m < k → src.groups ts m < src.groups ts k) : ∃ inner f, src.Holds ts m n inner f := by
  induction n, hmn using Nat.le_induction with
  | base =>
    obtain ⟨opener, hopener, hopens⟩ := (Option.any_eq_true _ _).1 hm
    refine ⟨[], { saved := (src.moment ts m).opened }, ?_, rfl, .inl ⟨rfl, fun j hj hin => ?_⟩⟩
    · rw [(enters_of_directiveAt hopener).branches, enterDirective_opens hopens]
      rfl
    · exact absurd hin.behind (by omega)
  | succ n hmn ih =>
    have hopen' : ∀ k ≤ n, m < k → src.groups ts m < src.groups ts k := fun k hk => hopen k (Nat.le_succ_of_le hk)
    obtain ⟨inner, f, hholds⟩ := ih hopen'
    refine hholds.succ (fun word hat hword hnil => ?_) (hopen (n + 1) (Nat.le_refl _) (Nat.lt_succ_of_lt hmn))
    have hlevel := hholds.groups_eq
    subst hnil
    exact ⟨hm, by rw [hat]; exact hword, hmn, hopen', by rw [hlevel, List.length_nil]; omega⟩

/-- At a directive that continues a group, the branch kept for the group is the innermost one. -/
theorem InGroup.exists_holds (h : src.InGroup ts m n) : ∃ f, src.Holds ts m n [] f := by
  obtain ⟨inner, f, hholds⟩ := Source.exists_holds h.opens h.behind h.inside
  have hnil : inner = [] := by
    have hlevel := hholds.groups_eq
    rw [h.innermost] at hlevel
    exact List.eq_nil_of_length_eq_zero (by omega)
  subst hnil
  exact ⟨f, hholds⟩

/-- Another branch of a group starts with the brackets that were open in front of the group. -/
theorem InGroup.opened_of_startsBranch (h : src.InGroup ts m n) (hstarts : (src.directiveAt ts n).any startsBranch = true) :
    (src.moment ts (n + 1)).opened = (src.moment ts m).opened := by
  obtain ⟨word, hat, hword⟩ := (Option.any_eq_true _ _).1 hstarts
  obtain ⟨f, hholds⟩ := h.exists_holds
  rw [(enters_of_directiveAt hat).opened, enterDirective_starts hword hholds.branches]
  exact hholds.keeps.saved

/-- Behind the end of a group those brackets are open that were open at the end of its first branch. -/
theorem InGroup.opened_of_endsBranches (h : src.InGroup ts m n) (hends : (src.directiveAt ts n).any endsBranches = true)
    (hk : src.EndsFirstBranch ts m k) : (src.moment ts (n + 1)).opened = (src.moment ts k).opened := by
  obtain ⟨word, hat, hword⟩ := (Option.any_eq_true _ _).1 hends
  obtain ⟨f, hholds⟩ := h.exists_holds
  rw [(enters_of_directiveAt hat).opened, enterDirective_ends hword hholds.branches]
  exact hholds.keeps.firstBranch_getD hk h

/-- Behind the end of a group those around it are open. -/
theorem InGroup.groups_of_endsBranches (h : src.InGroup ts m n) (hends : (src.directiveAt ts n).any endsBranches = true) :
    src.groups ts (n + 1) = src.groups ts m := by
  obtain ⟨word, hat, hword⟩ := (Option.any_eq_true _ _).1 hends
  rw [groups_succ_of_enters (enters_of_directiveAt hat), groupsBehind_ends _ hword, h.innermost, Nat.add_sub_cancel]

/-- Only a directive that opens a group makes the open groups more, and by one. -/
theorem opens_of_groups_lt (h : src.groups ts n < src.groups ts (n + 1)) :
    (src.directiveAt ts n).any opensBranches = true ∧ src.groups ts (n + 1) = src.groups ts n + 1 := by
  rcases between_or_enters src ts n with hbetween | ⟨word, henters⟩
  · rw [groups_succ_of_between hbetween] at h
    exact absurd h (Nat.lt_irrefl _)
  · rw [directiveAt_of_enters henters, groups_succ_of_enters henters] at *
    cases hopens : opensBranches word with
    | true => exact ⟨hopens, groupsBehind_opens _ hopens⟩
    | false =>
      simp only [groupsBehind, hopens, Bool.false_eq_true, if_false] at h
      split_ifs at h <;> omega

/-- Where directives are properly nested, every branch and every end belongs to a group: the one that was opened last among those
still open. -/
theorem exists_inGroup (hnested : ProperlyNested (src.annotate ts).directives)
    (hn : (src.directiveAt ts n).any continuesGroup = true) : ∃ m, src.InGroup ts m n := by
  obtain ⟨word, hat, hword⟩ := (Option.any_eq_true _ _).1 hn
  have hpos : src.groups ts 0 < src.groups ts n := groups_pos hnested (enters_of_directiveAt hat) hword
  obtain ⟨m, hm⟩ : ∃ m, m = Nat.findGreatest (fun k => src.groups ts k < src.groups ts n) n := ⟨_, rfl⟩
  have hbelow : src.groups ts m < src.groups ts n :=
    hm ▸ Nat.findGreatest_spec (P := fun k => src.groups ts k < src.groups ts n) (Nat.zero_le n) hpos
  have habove : ∀ k ≤ n, m < k → src.groups ts n ≤ src.groups ts k := fun k hk hmk =>
    Nat.not_lt.1 (Nat.findGreatest_is_greatest (P := fun k => src.groups ts k < src.groups ts n) (hm ▸ hmk) hk)
  have hmn : m < n := by
    refine Nat.lt_of_le_of_ne (hm ▸ Nat.findGreatest_le n) ?_
    rintro rfl
    exact Nat.lt_irrefl _ hbelow
  have hnext := habove (m + 1) hmn (Nat.lt_succ_self m)
  obtain ⟨hopens, hsucc⟩ := opens_of_groups_lt (Nat.lt_of_lt_of_le hbelow hnext)
  exact ⟨m, hopens, hn, hmn, fun k hk hmk => Nat.lt_of_lt_of_le hbelow (habove k hk hmk), by omega⟩

/-- The first branch of a group has an end where the group goes on. -/
theorem InGroup.exists_endsFirstBranch (h : src.InGroup ts m n) : ∃ k ≤ n, src.EndsFirstBranch ts m k :=
  ⟨Nat.find ⟨n, h⟩, Nat.find_le h, Nat.find_spec ⟨n, h⟩, fun _ hj => Nat.find_min ⟨n, h⟩ hj⟩

/-! ## The groups around a lexeme -/

/-- From one token to the next, what is read outside directives counts the open groups. -/
theorem exists_nesting_succ (hnested : ProperlyNested (src.annotate ts).directives) (n : Nat) :
    ∃ new, (src.moment ts (n + 1)).lexemes.map (·.nesting) = new ++ (src.moment ts n).lexemes.map (·.nesting) ∧
      ∀ m ∈ new, m.1 = false → m.2 = src.groups ts n := by
  rcases between_or_enters src ts n with hbetween | ⟨word, henters⟩
  · obtain ⟨new, hlex, hnew⟩ := hbetween.lexemes
    refine ⟨new, hlex, fun m hm _ => ?_⟩
    rw [hnew m hm, branchDepth_moment hnested]
  · obtain ⟨new, hlex, hnew⟩ := henters.lexemes
    refine ⟨new, hlex, fun m hm hout => ?_⟩
    rw [hnew m hm] at hout
    cases hout

/-- What has been read keeps its nesting. -/
theorem nesting_suffix_moment (hnested : ProperlyNested (src.annotate ts).directives) (h : n ≤ m) :
    (src.moment ts n).lexemes.map (·.nesting) <:+ (src.moment ts m).lexemes.map (·.nesting) := by
  induction m, h using Nat.le_induction with
  | base => exact List.suffix_rfl
  | succ m _ ih =>
    obtain ⟨new, hlex, -⟩ := exists_nesting_succ hnested m
    rw [hlex]
    exact ih.trans (List.suffix_append _ _)

/-- A lexeme is read between two tokens. -/
theorem exists_moment (h : j < (src.moment ts n).lexemes.length) :
    ∃ i < n, (src.moment ts i).lexemes.length ≤ j ∧ j < (src.moment ts (i + 1)).lexemes.length := by
  induction n with
  | zero => cases h
  | succ n ih =>
    by_cases hj : j < (src.moment ts n).lexemes.length
    · obtain ⟨i, hi, hrange⟩ := ih hj
      exact ⟨i, Nat.lt_succ_of_lt hi, hrange⟩
    · exact ⟨n, Nat.lt_succ_self n, Nat.not_lt.1 hj, h⟩

theorem nesting_suffix_annotate (hnested : ProperlyNested (src.annotate ts).directives) (n : Nat) :
    (src.moment ts n).lexemes.map (·.nesting) <:+ (src.annotate ts).lexemes.map (·.nesting) := by
  rw [← moment_of_length_le (Nat.le_max_right n (Token.mergeRuns (Token.cutLines ts)).length)]
  exact nesting_suffix_moment hnested (Nat.le_max_left _ _)

/-- A lexeme of the strand has the place in the groups that it was read with. -/
theorem nesting_mem_of_read (hnested : ProperlyNested (src.annotate ts).directives) {new : List (Bool × Int)}
    (hlow : (src.moment ts n).lexemes.length ≤ j) (hhigh : j < (src.moment ts (n + 1)).lexemes.length)
    (hlex : (src.moment ts (n + 1)).lexemes.map (·.nesting) = new ++ (src.moment ts n).lexemes.map (·.nesting))
    (hj : j < (src.annotate ts).lexemes.length) : ((src.read ts).lexeme (some j)).nesting ∈ new := by
  obtain ⟨newer, z, older, hsplit, hlength⟩ := exists_split_of_length hj
  have hget : (((src.annotate ts).lexemes.map (·.nesting)).reverse)[j]? = some z.nesting := by
    rw [hsplit, List.map_append, List.map_cons, List.reverse_append, List.reverse_cons, List.append_assoc, ← hlength]
    simp
  -- In the order of the strand the lexeme stands behind those of earlier tokens and in front of those of later ones.
  obtain ⟨later, hlater⟩ := nesting_suffix_annotate hnested (n + 1)
  have hcount := congrArg List.length hlex
  simp only [List.length_map, List.length_append] at hcount
  rw [← hlater, hlex, List.reverse_append, List.reverse_append, List.append_assoc,
    List.getElem?_append_right (by simpa using hlow), List.getElem?_append_left] at hget
  · rw [← hlength, lexeme_read hsplit]
    exact List.mem_reverse.1 (List.mem_of_getElem? hget)
  · simp only [List.length_reverse, List.length_map]
    omega

/-- A lexeme of the strand that is in no directive counts the groups that are open at the token it is read from. -/
theorem exists_branchDepth_read (hnested : ProperlyNested (src.annotate ts).directives) (hj : j < (src.read ts).size) :
    ∃ n, (src.moment ts n).lexemes.length ≤ j ∧ j < (src.moment ts (n + 1)).lexemes.length ∧
      ((src.read ts).inDirective j = false → ((src.read ts).lexeme (some j)).branchDepth = src.groups ts n) := by
  rw [size_read] at hj
  have hend : src.moment ts (Token.mergeRuns (Token.cutLines ts)).length = src.annotate ts := moment_of_length_le (Nat.le_refl _)
  obtain ⟨n, -, hlow, hhigh⟩ := exists_moment (hend ▸ hj)
  obtain ⟨new, hlex, hnew⟩ := exists_nesting_succ hnested n
  exact ⟨n, hlow, hhigh, hnew _ (nesting_mem_of_read hnested hlow hhigh hlex hj)⟩

/-- Conditional directives that are properly nested restore the brackets. Every branch and every end belongs to a group whose first
branch ends there or before. A further branch of a group starts with the brackets that were open in front of the group; behind
the group those are open that were open at the end of its first branch, and as many groups as in front of it. The reader always
counts the open groups, and so does every lexeme outside directives. -/
theorem brackets_of_properlyNested (src : Source) (ts : List Token) (hnested : ProperlyNested (src.annotate ts).directives) :
    (∀ n, (src.directiveAt ts n).any continuesGroup = true → ∃ m, src.InGroup ts m n ∧ ∃ k ≤ n, src.EndsFirstBranch ts m k) ∧
    (∀ m n, src.InGroup ts m n → (src.directiveAt ts n).any startsBranch = true →
      (src.moment ts (n + 1)).opened = (src.moment ts m).opened) ∧
    (∀ m k n, src.EndsFirstBranch ts m k → src.InGroup ts m n → (src.directiveAt ts n).any endsBranches = true →
      (src.moment ts (n + 1)).opened = (src.moment ts k).opened ∧
        (src.moment ts (n + 1)).branchDepth = (src.moment ts m).branchDepth) ∧
    (∀ n, (src.moment ts n).branchDepth = src.groups ts n) ∧
    ∀ j < (src.read ts).size, ∃ n, (src.moment ts n).lexemes.length ≤ j ∧ j < (src.moment ts (n + 1)).lexemes.length ∧
      ((src.read ts).inDirective j = false → ((src.read ts).lexeme (some j)).branchDepth = src.groups ts n) := by
  refine ⟨fun n hn => ?_, fun m n hin hstarts => hin.opened_of_startsBranch hstarts, fun m k n hk hin hends => ?_,
    branchDepth_moment hnested, fun j hj => exists_branchDepth_read hnested hj⟩
  · obtain ⟨m, hin⟩ := exists_inGroup hnested hn
    exact ⟨m, hin, hin.exists_endsFirstBranch⟩
  · refine ⟨hin.opened_of_endsBranches hends hk, ?_⟩
    rw [branchDepth_moment hnested, branchDepth_moment hnested, hin.groups_of_endsBranches hends]

namespace BranchesAux

/-- Two branches with a bracket that is left open in each, and a group inside the first one. -/
def branchedTokens : List Token :=
  [⟨0, .directive, Text.ofString "#if A"⟩, ⟨5, .text, Text.ofString "\n"⟩, ⟨6, .punctuation, Text.ofString "("⟩,
    ⟨7, .text, Text.ofString "\n"⟩, ⟨8, .directive, Text.ofString "#if B"⟩, ⟨13, .text, Text.ofString "\n"⟩,
    ⟨14, .punctuation, Text.ofString "\x7b"⟩, ⟨15, .text, Text.ofString "\n"⟩, ⟨16, .directive, Text.ofString "#endif"⟩,
    ⟨22, .text, Text.ofString "\n"⟩, ⟨23, .directive, Text.ofString "#else"⟩, ⟨28, .text, Text.ofString "\n"⟩,
    ⟨29, .punctuation, Text.ofString "["⟩, ⟨30, .text, Text.ofString "\n"⟩, ⟨31, .directive, Text.ofString "#endif"⟩,
    ⟨37, .text, Text.ofString "\n"⟩, ⟨38, .name, Text.ofString "g"⟩]

/-- The source that they are cut from. -/
def branchedSource : Source := { text := branchedTokens.flatMap (·.text) }

end BranchesAux

open BranchesAux in
/-- The second branch starts without open brackets, and behind the group the brackets of the first branch are open: those of the
group inside it too. -/
theorem brackets_branchedSource :
    (branchedSource.moment branchedTokens 11).opened = [] ∧
      ((branchedSource.moment branchedTokens 15).opened.map (·.bracket) = [.brace, .paren] ∧
        (branchedSource.moment branchedTokens 15).branchDepth = 0) ∧
      (branchedSource.moment branchedTokens 7).branchDepth = 2 := by
  obtain ⟨-, hstarts, hends, hdepth, -⟩ := brackets_of_properlyNested branchedSource branchedTokens (by decide +kernel)
  obtain ⟨hopened, houtside⟩ := hends 0 10 14 (by decide +kernel) (by decide +kernel) (by decide +kernel)
  refine ⟨?_, ⟨?_, houtside⟩, ?_⟩
  · rw [hstarts 0 10 (by decide +kernel) (by decide +kernel)]
    rfl
  · rw [hopened]
    decide +kernel
  · rw [hdepth]
    decide +kernel

end Source

end CodeGroom
