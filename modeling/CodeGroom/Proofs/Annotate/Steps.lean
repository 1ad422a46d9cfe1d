import CodeGroom.Proofs.Annotate.Moves
import CodeGroom.Proofs.Bracket.Forest

/-!
# Reading as a sequence of small steps

Whatever a token is, reading it is a sequence of a few kinds of steps: a lexeme that is no bracket, an opening or a closing
bracket, another kind for the last word, a line break that gets longer, a whole directive. What every step preserves holds of
everything that is read.
-/

namespace CodeGroom

namespace Annotator

variable {src : Source} {a b : Annotator}

/-- A step of reading code, comments and line breaks. A lexeme without symbols directly follows the one before it. A closing
bracket fits every bracket that is written alike. -/
inductive CodeStep (src : Source) : Annotator → Annotator → Prop where
  | plain {a : Annotator} {kind : Kind} (start : Nat) (text : Text) :
      kind.isBracket = false → (text ≠ [] ∨ a.covered = start) → CodeStep src a (a.addPlain src kind start text)
  | opening {a : Annotator} (bracket : Bracket) (start : Nat) (text : Text) (owner : Kind) :
      text ≠ [] → CodeStep src a (a.openBracket src bracket start text owner)
  | closing {a : Annotator} {fits : Bracket → Bool} {alone : Bracket} (start : Nat) (text : Text) :
      (∀ b, fits b = alone.alike b) → text ≠ [] → CodeStep src a (a.closeBracket src fits alone start text)
  | retyped {a : Annotator} {kind : Kind} :
      a.lastCode.kind = .word → kind.isBracket = false → CodeStep src a (a.retype kind)
  | lengthened {a : Annotator} {x : Lexeme} {xs : List Lexeme} (covered : Nat) :
      a.lexemes = x :: xs → x.kind = .newline →
      CodeStep src a { a with lexemes := { x with breaks := x.breaks + 1 } :: xs, covered }
  | asked {a : Annotator} (questions : List Nat) : CodeStep src a { a with questions }

/-- Any number of steps. -/
abbrev CodeSteps (src : Source) : Annotator → Annotator → Prop := Relation.ReflTransGen (CodeStep src)

theorem CodeSteps.refl (a : Annotator) : CodeSteps src a a := Relation.ReflTransGen.refl

/-- One step is a way of steps. -/
theorem CodeStep.steps (h : CodeStep src a b) : CodeSteps src a b := Relation.ReflTransGen.single h

/-- What every step preserves, any number of steps preserves. -/
theorem CodeSteps.invariant {P : Annotator → Prop} (hstep : ∀ a b, P a → CodeStep src a b → P b) (h : CodeSteps src a b)
    (ha : P a) : P b := by
  induction h with
  | refl => exact ha
  | tail _ hlast ih => exact hstep _ _ ih hlast

/-- Changing the last code lexeme changes one lexeme, and those read since are no brackets. -/
theorem exists_changeLastCode {f : Lexeme → Lexeme} {xs : List Lexeme} {x : Lexeme}
    (h : xs.find? (·.kind.isCode) = some x) : ∃ p q, xs = p ++ x :: q ∧ changeLastCode f xs = p ++ f x :: q ∧
      ∀ z ∈ p, z.kind.isBracket = false := by
  induction xs with
  | nil => cases h
  | cons y xs ih =>
    rw [List.find?_cons] at h
    unfold changeLastCode
    cases hy : y.kind.isCode with
    | true =>
      rw [hy] at h
      obtain rfl := Option.some.inj h
      exact ⟨[], xs, rfl, rfl, by simp⟩
    | false =>
      rw [hy] at h
      obtain ⟨p, q, hxs, hchange, hp⟩ := ih h
      refine ⟨y :: p, q, by rw [hxs]; rfl, by rw [hchange]; rfl, ?_⟩
      intro z hz
      rcases List.mem_cons.1 hz with rfl | hz
      · cases hk : z.kind <;> rw [hk] at hy <;> first | rfl | cases hy
      · exact hp z hz

/-- A word that turns out to be something else is one lexeme with another kind, and those read since are no brackets. -/
theorem exists_retype (kind : Kind) (h : a.lastCode.kind = .word) : ∃ p x q, a.lexemes = p ++ x :: q ∧
    (a.retype kind).lexemes = p ++ { x with kind } :: q ∧ x.kind = .word ∧ ∀ z ∈ p, z.kind.isBracket = false := by
  cases hlast : a.lexemes.find? (·.kind.isCode) with
  | none =>
    rw [lastCode, hlast] at h
    cases h
  | some x =>
    rw [lastCode, hlast] at h
    obtain ⟨p, q, hlex, hlex', hp⟩ := exists_changeLastCode (f := fun x => { x with kind }) hlast
    exact ⟨p, x, q, hlex, hlex', h, hp⟩

/-- A line break is read in steps. -/
theorem steps_newline (start : Nat) (a : Annotator) : CodeSteps src a (a.newline src start) := by
  have hplain : CodeStep src a (a.addPlain src .newline start [Text.lineFeed]) := .plain _ _ rfl (.inl (List.cons_ne_nil _ _))
  rcases newline_cases src start a with hread | ⟨x, xs, hlex, hx, hread⟩
  · rw [hread]
    exact hplain.steps
  · rw [hread]
    exact (CodeStep.lengthened _ hlex hx).steps

/-- A round bracket is read in steps: the word in front of it may become a call. -/
theorem steps_openRound (start : Nat) {text : Text} (ht : text ≠ []) (a : Annotator) :
    CodeSteps src a (a.openRound src start text) := by
  obtain ⟨b, bracket, owner, hopen, hb⟩ := exists_openRound src start text a
  have hsteps : CodeSteps src a b := by
    rcases hb with rfl | ⟨hword, rfl | rfl⟩
    · exact CodeSteps.refl b
    · exact (CodeStep.retyped hword rfl).steps
    · exact (CodeStep.retyped hword rfl).steps
  rw [hopen]
  exact hsteps.tail (.opening bracket start text owner ht)

/-- A lexeme that is no bracket, behind a change of the questions. -/
theorem steps_askedPlain {kind : Kind} (hk : kind.isBracket = false) (questions : List Nat) (start : Nat) {text : Text}
    (ht : text ≠ []) (a : Annotator) : CodeSteps src a ({ a with questions }.addPlain src kind start text) :=
  (CodeStep.asked questions).steps.tail (.plain _ _ hk (.inl ht))

/-- A colon is read in steps: it may answer a question. -/
theorem steps_colon (start : Nat) {text : Text} (ht : text ≠ []) (a : Annotator) :
    CodeSteps src a (a.colon src start text) := by
  rcases colon_cases src start text a with ⟨-, hread⟩ | ⟨rest, -, hread⟩
  · rw [hread]
    exact (CodeStep.plain _ _ rfl (.inl ht)).steps
  · rw [hread]
    exact steps_askedPlain rfl _ _ ht _

/-- Plain kinds are no brackets. -/
theorem isBracket_of_isPlain {kind : Kind} (h : kind.isPlain = true) : kind.isBracket = false := by
  cases kind <;> first | rfl | cases h

/-- Words are no brackets. -/
theorem isBracket_wordKind (cls : TokenClass) (text : Text) (before : Kind) : (wordKind cls text before).isBracket = false := by
  have hkinds : ∀ kind ∈ wordKinds, kind.isBracket = false := by decide
  exact hkinds _ (mem_wordKinds cls text before)

/-- Every move takes steps. -/
theorem CodeMove.steps (h : CodeMove src a b) : CodeSteps src a b := by
  cases h with
  | plain start text hk ht => exact (CodeStep.plain start text (isBracket_of_isPlain hk) ht).steps
  | newline start => exact steps_newline start a
  | word start cls text ht => exact (CodeStep.plain start text (isBracket_wordKind _ _ _) (.inl ht)).steps
  | scope start text ht =>
    split_ifs with hword
    · exact (CodeStep.retyped hword rfl).steps.tail (.plain _ _ rfl (.inl ht))
    · exact (CodeStep.plain _ _ rfl (.inl ht)).steps
  | round start text ht => exact steps_openRound start ht a
  | opening start text _ ht => exact (CodeStep.opening _ start text .nothing ht).steps
  | closing start text hfits ht => exact (CodeStep.closing start text hfits ht).steps
  | question start text ht => exact steps_askedPlain rfl _ start ht a
  | colon start text ht => exact steps_colon start ht a
  | semicolon start text ht => exact steps_askedPlain rfl _ start ht a

/-- What can be read in moves can be read in steps. -/
theorem CodeMoves.steps (h : CodeMoves src a b) : CodeSteps src a b := by
  induction h with
  | refl => exact .refl a
  | tail _ hlast ih => exact ih.trans hlast.steps

theorem steps_closeAngle (start : Nat) (a : Annotator) : CodeSteps src a (a.closeAngle src start) := (moves_closeAngle start a).steps

/-- An operator is read in steps. -/
theorem steps_operator (start : Nat) {op : Text} (hop : op ≠ []) (a : Annotator) : CodeSteps src a (a.operator src start op) :=
  (moves_operator start hop a).steps

/-- Operators are read in steps. -/
theorem steps_operators {ops : List Text} (hops : ∀ op ∈ ops, op ≠ []) (start : Nat) (a : Annotator) :
    CodeSteps src a (operators src start ops a) :=
  (moves_operators hops start a).steps

/-- A token that has symbols starts a directive or is read in steps of code. -/
theorem directive_or_steps_token (src : Source) {t : Token} (ht : t.text ≠ []) (a : Annotator) :
    (a.readsDirective t = true ∧ token src a t = a.directive src (hashPlace t)) ∨ CodeSteps src a (token src a t) :=
  (directive_or_moves_token src ht a).imp_right CodeMoves.steps

/-- Reading a token that is not one of a directive takes steps of code. -/
theorem steps_token {t : Token} (ht : t.text ≠ []) (h : t.cls.within .directive = false) (a : Annotator) :
    CodeSteps src a (token src a t) := by
  refine (directive_or_steps_token src ht a).resolve_left ?_
  rintro ⟨hdir, -⟩
  simp [readsDirective, h] at hdir

/-- Tokens that start no directive are read in steps. -/
theorem steps_tokens {ts : List Token} (ht : ∀ t ∈ ts, t.text ≠ []) (h : ∀ t ∈ ts, t.cls.within .directive = false)
    (a : Annotator) : CodeSteps src a (a.tokens src ts) := by
  induction ts generalizing a with
  | nil => exact CodeSteps.refl a
  | cons t ts ih =>
    have hrest := ih (fun u hu => ht u (List.mem_cons_of_mem _ hu)) fun u hu => h u (List.mem_cons_of_mem _ hu)
    exact (steps_token (ht t List.mem_cons_self) (h t List.mem_cons_self) a).trans (hrest _)

/-! ## Directives as steps -/

/-- A step of reading: one of code, or a whole directive. -/
inductive Step (src : Source) : Annotator → Annotator → Prop where
  | code {a b : Annotator} : CodeStep src a b → Step src a b
  | directive {a : Annotator} (start : Nat) : Step src a (a.directive src start)

/-- Any number of steps of reading. -/
abbrev Steps (src : Source) : Annotator → Annotator → Prop := Relation.ReflTransGen (Step src)

/-- Steps in code are steps. -/
theorem CodeSteps.toSteps (h : CodeSteps src a b) : Steps src a b :=
  Relation.ReflTransGen.mono (fun _ _ hstep => Step.code hstep) _ _ h

/-- What every step preserves, any number of steps preserves. -/
theorem Steps.invariant {P : Annotator → Prop} (hstep : ∀ a b, P a → Step src a b → P b) (h : Steps src a b)
    (ha : P a) : P b := by
  induction h with
  | refl => exact ha
  | tail _ hlast ih => exact hstep _ _ ih hlast

/-- Reading tokens takes steps. -/
theorem steps_of_tokens {ts : List Token} (ht : ∀ t ∈ ts, t.text ≠ []) (a : Annotator) : Steps src a (a.tokens src ts) := by
  induction ts generalizing a with
  | nil => exact Relation.ReflTransGen.refl
  | cons t ts ih =>
    have hrest := ih (fun u hu => ht u (List.mem_cons_of_mem _ hu)) (token src a t)
    refine Relation.ReflTransGen.trans ?_ hrest
    rcases directive_or_steps_token src (ht t List.mem_cons_self) a with ⟨-, hread⟩ | hcode
    · rw [hread]
      exact Relation.ReflTransGen.single (.directive (hashPlace t))
    · exact hcode.toSteps

/-- A lexeme of a directive, or a line break in one, read at some depth. -/
structure DirectiveLexeme (depth : Nat) (x : Lexeme) : Prop where
  kind : x.kind = .directive ∨ x.kind = .newline
  inDirective : x.inDirective = true
  depth_eq : x.depth = depth
  text : x.text ≠ []

/-- From the first state to the second one, only lexemes of a directive were added. -/
structure AddsDirective (a b : Annotator) : Prop where
  lexemes : ∃ new : List Lexeme, b.lexemes = new ++ a.lexemes ∧ ∀ x ∈ new, DirectiveLexeme a.depth x
  opened : b.opened = a.opened
  branches : b.branches = a.branches
  trace : b.trace = a.trace

theorem AddsDirective.refl (a : Annotator) : AddsDirective a a := ⟨⟨[], rfl, by simp⟩, rfl, rfl, rfl⟩

/-- One directive may come behind another one. -/
theorem AddsDirective.trans {c : Annotator} (h : AddsDirective a b) (h' : AddsDirective b c) : AddsDirective a c := by
  obtain ⟨new, hlex, hnew⟩ := h.lexemes
  obtain ⟨new', hlex', hnew'⟩ := h'.lexemes
  have hdepth : b.depth = a.depth := congrArg List.length h.opened
  refine ⟨⟨new' ++ new, by rw [hlex', hlex, List.append_assoc], ?_⟩, h'.opened.trans h.opened, h'.branches.trans h.branches,
    h'.trace.trans h.trace⟩
  intro x hx
  rcases List.mem_append.1 hx with hx | hx
  · rw [← hdepth]
    exact hnew' x hx
  · exact hnew x hx

/-- A lexeme of a directive adds to it. -/
theorem AddsDirective.add {kind : Kind} {text : Text} (hk : kind = .directive ∨ kind = .newline) (ht : text ≠ [])
    (start : Nat) (a : Annotator) : AddsDirective a (a.add src kind start text .nothing true) := by
  refine ⟨⟨[_], rfl, ?_⟩, rfl, rfl, rfl⟩
  intro x hx
  rw [List.mem_singleton.1 hx]
  exact ⟨hk, rfl, rfl, ht⟩

/-- The lines of a directive add to it. -/
theorem addsDirective_directiveLines (src : Source) (ls : List Text) (pos : Nat) (a : Annotator) :
    AddsDirective a (directiveLines src pos ls a) := by
  induction ls generalizing pos a with
  | nil => exact .refl a
  | cons l ls ih =>
    unfold directiveLines
    dsimp only
    obtain ⟨indent, hindent⟩ : ∃ n, n = (l.takeWhile (·.isOneOf " \t")).length := ⟨_, rfl⟩
    rw [← hindent]
    have hpart : AddsDirective a (if Text.trimEnd (l.drop indent) = [] then a
        else a.add src .directive (pos + indent) (Text.trimEnd (l.drop indent)) .nothing true) := by
      split_ifs with hpart
      · exact .refl a
      · exact .add (.inl rfl) hpart _ _
    generalize (if Text.trimEnd (l.drop indent) = [] then a
      else a.add src .directive (pos + indent) (Text.trimEnd (l.drop indent)) .nothing true) = b at hpart ⊢
    split_ifs
    · exact (hpart.trans (.add (.inr rfl) (List.cons_ne_nil _ _) _ _)).trans (ih _ _)
    · exact ⟨hpart.lexemes, hpart.opened, hpart.branches, hpart.trace⟩

/-- The name of the directive at a place. -/
def wordAt (src : Source) (start : Nat) : Text := directiveWord (src.text.drop start)

/-- Entering a directive adds nothing yet. -/
theorem enterDirective_leaves (word : Text) (a : Annotator) : (a.enterDirective word).lexemes = a.lexemes ∧
    (a.enterDirective word).trace = a.trace := by
  unfold enterDirective
  split_ifs
  · exact ⟨rfl, rfl⟩
  · split <;> exact ⟨rfl, rfl⟩
  · split <;> exact ⟨rfl, rfl⟩
  · exact ⟨rfl, rfl⟩

/-- Behind the name of a directive, reading adds its lexemes and leaves the open brackets and the branches. -/
theorem addsDirective_directive (src : Source) (start : Nat) (a : Annotator) :
    ∃ b, AddsDirective (a.enterDirective (wordAt src start)) b ∧
    (a.directive src start).lexemes = b.lexemes ∧ (a.directive src start).opened = b.opened ∧
    (a.directive src start).branches = b.branches ∧
    ∃ line depth, (a.directive src start).trace = .directiveRead (wordAt src start) line depth :: b.trace := by
  refine ⟨_, addsDirective_directiveLines src (Text.lines (src.text.drop start)) start _, ?_, ?_, ?_, src.lineAt start,
    (a.directive src start).branchDepth, ?_⟩ <;>
  · unfold directive wordAt
    dsimp only
    split_ifs <;> rfl

/-- Reading a directive adds its lexemes. -/
theorem exists_new_directive (src : Source) (start : Nat) (a : Annotator) : ∃ new, (a.directive src start).lexemes = new ++ a.lexemes ∧
    ∀ x ∈ new, DirectiveLexeme (a.enterDirective (wordAt src start)).depth x := by
  obtain ⟨b, hadds, hlex, -⟩ := addsDirective_directive src start a
  obtain ⟨new, hnew, hdir⟩ := hadds.lexemes
  rw [(enterDirective_leaves (wordAt src start) a).1] at hnew
  exact ⟨new, hlex.trans hnew, hdir⟩

end Annotator

end CodeGroom
