import CodeGroom.Proofs.Annotate.Angles
import CodeGroom.Proofs.Annotate.Questions

/-!
# Colons of conditional expressions

As long as no directive brings other brackets back, the reader's depths of question marks are those that its lexemes say. So a colon
is taken for one of a conditional expression exactly where a question mark waits for it directly inside the innermost open bracket.
-/

namespace CodeGroom

namespace Annotator

variable {src : Source} {a b : Annotator} {kind : Kind}

/-- The open brackets and the waiting question marks are those of the lexemes read so far, and the colons among these are decided. -/
structure Matched (a : Annotator) : Prop where
  opened : a.opened.map (fun o => (o.id, o.bracket)) = openBehind a.lexemes
  questions : a.questions = waiting (openBehind a.lexemes) a.lexemes
  decided : ColonsDecided a.lexemes

/-- Nothing is open before anything is read. -/
theorem matched_start : Matched {} := ⟨rfl, rfl, trivial⟩

/-- The depth is the number of brackets that are open. -/
theorem Matched.depth_eq (h : Matched a) : a.depth = (openBehind a.lexemes).length := by
  rw [← h.opened, List.length_map]
  rfl

/-- Lexemes that have nothing to do with question marks may change their kinds. -/
theorem Matched.alike (h : Matched a) (hlex : List.Forall₂ Lexeme.Alike b.lexemes a.lexemes) (hopened : b.opened = a.opened)
    (hquestions : b.questions = a.questions) : Matched b := by
  refine ⟨?_, ?_, h.decided.alike hlex⟩
  · rw [hopened, openBehind_alike hlex, h.opened]
  · rw [hquestions, openBehind_alike hlex, waiting_alike hlex, h.questions]

/-- A lexeme is read that is no colon. -/
theorem Matched.read {x : Lexeme} (h : Matched a) (hlex : b.lexemes = x :: a.lexemes) (hx : x.kind ≠ .condColon ∧ x.kind ≠ .colon)
    (hopened : b.opened.map (fun o => (o.id, o.bracket)) = openBehind (x :: a.lexemes))
    (hquestions : b.questions = waiting (openBehind (x :: a.lexemes)) (x :: a.lexemes)) : Matched b := by
  refine ⟨hlex ▸ hopened, hlex ▸ hquestions, ?_⟩
  rw [hlex]
  exact ⟨fun hk => absurd hk hx.1, fun hk => absurd hk hx.2, h.decided⟩

/-- A lexeme is read that is no bracket. -/
theorem Matched.readPlain {x : Lexeme} (h : Matched a) (hlex : b.lexemes = x :: a.lexemes) (hx : x.kind.isBracket = false)
    (hopened : b.opened = a.opened) (hquestions : b.questions = waiting (openBehind a.lexemes) (x :: a.lexemes))
    (hcond : x.kind = .condColon → unanswered (openBehind a.lexemes) a.lexemes ≠ [])
    (hcolon : x.kind = .colon → unanswered (openBehind a.lexemes) a.lexemes = []) : Matched b := by
  refine ⟨?_, ?_, ?_⟩
  · rw [hlex, openBehind_cons hx, hopened, h.opened]
  · rw [hlex, openBehind_cons hx, hquestions]
  · rw [hlex]
    exact ⟨hcond, hcolon, h.decided⟩

/-- What neither opens nor closes nor asks nor answers changes nothing. -/
theorem Matched.readIdle {x : Lexeme} (h : Matched a) (hlex : b.lexemes = x :: a.lexemes) (hx : x.kind.isIdle = true)
    (hopened : b.opened = a.opened) (hquestions : b.questions = a.questions) : Matched b := by
  refine h.readPlain hlex (isBracket_of_isIdle hx) hopened ?_ (fun hk => absurd hk (ne_of_isIdle hx rfl))
    fun hk => absurd hk (ne_of_isIdle hx rfl)
  rw [hquestions, waiting_pass ⟨ne_of_isIdle hx rfl, ne_of_isIdle hx rfl, ne_of_isIdle hx rfl⟩, h.questions]

theorem Matched.add (h : Matched a) (hk : kind.isIdle = true) (start : Nat) (text : Text) (owner : Kind) (directive : Bool) :
    Matched (a.add src kind start text owner directive) :=
  h.readIdle rfl hk rfl rfl

/-! ## Moves -/

/-- Plain kinds are idle. -/
theorem isIdle_of_isPlain (h : kind.isPlain = true) : kind.isIdle = true := by
  cases kind <;> first | rfl | cases h

/-- Words are idle. -/
theorem isIdle_wordKind (cls : TokenClass) (text : Text) (before : Kind) : (wordKind cls text before).isIdle = true := by
  have hkinds : ∀ kind ∈ wordKinds, kind.isIdle = true := by decide
  exact hkinds _ (mem_wordKinds cls text before)

/-- The last word with another kind has nothing to do with question marks still. -/
theorem alike_retype (hword : a.lastCode.kind = .word) (hk : kind.isIdle = true) :
    List.Forall₂ Lexeme.Alike (a.retype kind).lexemes a.lexemes := by
  obtain ⟨p, x, q, hlex, hlex', hx, -⟩ := exists_retype kind hword
  rw [hlex', hlex]
  exact List.rel_append (alike_self p) (.cons (.inr ⟨hk, hx ▸ rfl⟩) (alike_self q))

/-- Changing the kind of a word changes nothing. -/
theorem Matched.retype (h : Matched a) (hword : a.lastCode.kind = .word) (hk : kind.isIdle = true) : Matched (a.retype kind) :=
  h.alike (alike_retype hword hk) rfl rfl

/-- Line breaks change nothing. -/
theorem Matched.newline (h : Matched a) (start : Nat) : Matched (a.newline src start) := by
  rcases newline_cases src start a with hread | ⟨x, xs, hlex, -, hread⟩
  · rw [hread]
    exact h.add rfl start _ .nothing false
  · rw [hread]
    refine h.alike ?_ rfl rfl
    rw [hlex]
    exact .cons (.inl rfl) (alike_self xs)

/-- An opening bracket is the innermost one that is open. -/
theorem Matched.openBracket (h : Matched a) (bracket : Bracket) (start : Nat) (text : Text) (owner : Kind) :
    Matched (a.openBracket src bracket start text owner) := by
  refine h.read rfl (by simp) ?_ ?_
  · rw [openBehind, ← h.opened]
    rfl
  · rw [waiting_opening rfl]
    exact h.questions

theorem Matched.openRound (h : Matched a) (start : Nat) (text : Text) : Matched (a.openRound src start text) := by
  obtain ⟨b, bracket, owner, hopen, hb⟩ := exists_openRound src start text a
  have hname : Matched b := by
    rcases hb with rfl | ⟨hword, rfl | rfl⟩
    · exact h
    · exact h.retype hword rfl
    · exact h.retype hword rfl
  rw [hopen]
  exact hname.openBracket bracket start text owner

/-- A closing bracket takes its questions with it. -/
theorem Matched.closeBracket {fits : Bracket → Bool} {alone : Bracket} (h : Matched a) (hfits : ∀ b, fits b = alone.alike b)
    (start : Nat) (text : Text) : Matched (a.closeBracket src fits alone start text) := by
  rcases closeBracket_cases src fits alone start text a with ⟨hnone, hread⟩ | ⟨inner, o, outer, c, hsplit, hinner, hfit, hc, hread⟩
  · -- Nothing open has the shape of the closing bracket, so its shape closes nothing.
    have hshape : ∀ u ∈ openBehind a.lexemes, u.2 ≠ alone := by
      rw [← h.opened]
      intro u hu halone
      obtain ⟨o, ho, rfl⟩ := List.mem_map.1 hu
      have hfalse := hnone o ho
      rw [hfits, show o.bracket = alone from halone, Bracket.alike_self] at hfalse
      cases hfalse
    have hopened : ∀ x : Lexeme, x.kind = .closing alone → openBehind (x :: a.lexemes) = openBehind a.lexemes := by
      intro x hx
      rw [openBehind, hx]
      exact Bracket.close_of_forall_ne hshape
    rw [hread]
    refine h.read rfl (by simp) ?_ ?_
    · rw [hopened _ rfl]
      exact h.opened
    · rw [hopened _ rfl, waiting_pass (by simp)]
      exact h.questions
  · have hopened : ∀ x : Lexeme, x.kind = .closing o.bracket →
        openBehind (x :: a.lexemes) = outer.map fun o => (o.id, o.bracket) := by
      intro x hx
      rw [openBehind, hx, ← h.opened, hsplit, List.map_append, List.map_cons]
      refine Bracket.close_append ?_ rfl
      intro u hu heq
      obtain ⟨v, hv, rfl⟩ := List.mem_map.1 hu
      have hv' := hinner v hv
      rw [show v.bracket = o.bracket from heq, hfit] at hv'
      cases hv'
    have hclosed : ∀ {c : Annotator}, c.lexemes = a.lexemes → c.questions = a.questions → Matched ({ c with
        opened := outer, questions := c.questions.filter (· ≤ outer.length) }.add src (.closing o.bracket) start text o.owner false) := by
      intro c hlex hquestions
      refine h.read (congrArg _ hlex) (by simp) ?_ ?_
      · rw [hopened _ rfl]
        rfl
      · rw [waiting_closing rfl, hopened _ rfl, List.length_map, ← h.questions, ← hquestions]
        rfl
    rw [hread]
    rcases hc with rfl | ⟨n, rfl⟩
    · exact hclosed rfl rfl
    · exact hclosed rfl rfl

/-- A question is asked in the innermost bracket. -/
theorem Matched.question (h : Matched a) (start : Nat) (text : Text) :
    Matched ({ a with questions := a.depth :: a.questions }.addPlain src .question start text) := by
  refine h.readPlain rfl rfl rfl ?_ nofun nofun
  rw [waiting_question rfl, ← h.depth_eq, ← h.questions]
  rfl

/-- A semicolon takes the questions of its bracket with it. -/
theorem Matched.semicolon (h : Matched a) (start : Nat) (text : Text) :
    Matched ({ a with questions := a.questions.filter (· < a.depth) }.addPlain src .semicolon start text) := by
  refine h.readPlain rfl rfl rfl ?_ nofun nofun
  rw [waiting_semicolon rfl, ← filter_lt_waiting, ← h.depth_eq, ← h.questions]
  rfl

/-- What waits directly inside the innermost open bracket is what the reader finds first. -/
theorem Matched.head_questions (h : Matched a) :
    a.questions.head? = some a.depth ↔ unanswered (openBehind a.lexemes) a.lexemes ≠ [] := by
  constructor
  · -- Else what waits stands outside of the innermost bracket, so its depth is another one.
    intro hhead hnone
    have hmem := List.mem_of_head? hhead
    rw [h.questions, waiting_eq, hnone, h.depth_eq] at hmem
    exact Nat.lt_irrefl _ (lt_of_mem_waitingOutside hmem)
  · intro hwaits
    rw [h.questions, waiting_condColon (x := { kind := .condColon, text := [] }) rfl hwaits, h.depth_eq]
    rfl

/-- A colon answers the last question that is open, if there is one. -/
theorem Matched.colon (h : Matched a) (start : Nat) (text : Text) : Matched (a.colon src start text) := by
  rcases colon_cases src start text a with ⟨hhead, hread⟩ | ⟨rest, hrest, hread⟩
  · have hnone : unanswered (openBehind a.lexemes) a.lexemes = [] := not_not.1 (mt h.head_questions.2 hhead)
    rw [hread]
    refine h.readPlain rfl rfl rfl ?_ nofun fun _ => hnone
    rw [waiting_pass (by simp)]
    exact h.questions
  · have hwaits := h.head_questions.1 (by rw [hrest]; rfl)
    have hless : ∀ x : Lexeme, x.kind = .condColon → rest = waiting (openBehind a.lexemes) (x :: a.lexemes) := by
      intro x hx
      have hquestions := h.questions.symm.trans hrest
      rw [waiting_condColon hx hwaits, h.depth_eq] at hquestions
      exact (List.cons.inj hquestions).2.symm
    rw [hread]
    exact h.readPlain rfl rfl rfl (hless _ rfl) (fun _ => hwaits) nofun

/-- Every move of the reader keeps questions and brackets matched. -/
theorem Matched.move (h : Matched a) (hmove : CodeMove src a b) : Matched b := by
  cases hmove with
  | plain start text hk _ => exact h.add (isIdle_of_isPlain hk) start text .nothing false
  | newline start => exact h.newline start
  | word start cls text _ => exact h.add (isIdle_wordKind _ _ _) start text .nothing false
  | scope start text _ =>
    refine Matched.add ?_ rfl start text .nothing false
    split_ifs with hword
    · exact h.retype hword rfl
    · exact h
  | round start text _ => exact h.openRound start text
  | opening start text _ _ => exact h.openBracket _ start text _
  | closing start text hfits _ => exact h.closeBracket hfits start text
  | question start text _ => exact h.question start text
  | colon start text _ => exact h.colon start text
  | semicolon start text _ => exact h.semicolon start text

/-! ## Directives -/

/-- Any number of lexemes are read that have nothing to do with question marks. -/
theorem Matched.readAll {new : List Lexeme} (h : Matched a) (hlex : b.lexemes = new ++ a.lexemes)
    (hnew : ∀ x ∈ new, x.kind.isIdle = true) (hopened : b.opened = a.opened) (hquestions : b.questions = a.questions) : Matched b := by
  induction new generalizing b with
  | nil => exact h.alike (hlex ▸ alike_self _) hopened hquestions
  | cons x new ih =>
    have hbefore : Matched { b with lexemes := new ++ a.lexemes } :=
      ih rfl (fun y hy => hnew y (List.mem_cons_of_mem x hy)) hopened hquestions
    exact hbefore.readIdle hlex (hnew x List.mem_cons_self) rfl rfl

/-- The lines of a directive ask nothing. -/
theorem questions_directiveLines (src : Source) (ls : List Text) (pos : Nat) (a : Annotator) :
    (directiveLines src pos ls a).questions = a.questions := by
  induction ls generalizing pos a with
  | nil => rfl
  | cons l ls ih =>
    unfold directiveLines
    dsimp only
    split_ifs
    · exact ih _ _
    · exact ih _ _
    · rfl
    · rfl

/-- And neither does a directive as a whole. -/
theorem questions_directive (src : Source) (start : Nat) (a : Annotator) : (a.directive src start).questions = a.questions := by
  have henter : ∀ word : Text, (a.enterDirective word).questions = a.questions := by
    intro word
    unfold enterDirective
    split_ifs
    · rfl
    · split <;> rfl
    · split <;> rfl
    · rfl
  unfold directive
  dsimp only
  split_ifs
  · exact (questions_directiveLines src _ _ _).trans (henter _)
  · exact (questions_directiveLines src _ _ _).trans (henter _)

/-- A directive that stays in its branch leaves the open brackets. -/
theorem Matched.directive (h : Matched a) (start : Nat)
    (hstays : ∀ e ∈ (a.directive src start).trace, e.switchesBranch = false) : Matched (a.directive src start) := by
  obtain ⟨b, hadds, -, hopened, -, line, depth, htrace⟩ := addsDirective_directive src start a
  obtain ⟨new, hlex, hdir⟩ := exists_new_directive src start a
  have hword := hstays (.directiveRead (wordAt src start) line depth) (htrace ▸ List.mem_cons_self)
  refine h.readAll hlex ?_ ?_ (questions_directive src start a)
  · intro x hx
    rcases (hdir x hx).kind with hk | hk <;> rw [hk] <;> rfl
  · rw [hopened, hadds.opened, opened_enterDirective hword]

/-- Steps add to the trace. -/
theorem Steps.trace_suffix (h : Steps src a b) : a.trace <:+ b.trace := by
  refine h.invariant (P := fun b => a.trace <:+ b.trace) ?_ (List.suffix_refl _)
  intro c d hc hstep
  obtain ⟨news, htrace, -⟩ := hstep.effect.opened_cases
  exact htrace ▸ hc.trans (List.suffix_append news _)

/-- A source in which no directive brings other brackets back is read with all its colons decided. -/
theorem matched_annotate {ts : List Token} (hstays : ∀ e ∈ (src.annotate ts).trace, e.switchesBranch = false) :
    Matched (src.annotate ts) := by
  refine tokens_invariant (P := fun a => (∀ e ∈ a.trace, e.switchesBranch = false) → Matched a) ?_ ?_
    Token.text_ne_nil_of_mem_pieces (fun _ => matched_start) hstays
  · intro a b ha hmove hb
    have htrace := (CodeSteps.toSteps hmove.steps).trace_suffix
    exact (ha fun e he => hb e (htrace.subset he)).move hmove
  · intro a start ha hb
    have hdirective : Step src a (a.directive src start) := .directive start
    have htrace := Steps.trace_suffix (Relation.ReflTransGen.single hdirective)
    exact (ha fun e he => hb e (htrace.subset he)).directive start hb

/-! ## Colons stay -/

/-- Reading adds lexemes and keeps those that are not idle. -/
theorem CodeMove.grows (h : CodeMove src a b) : Grows a.lexemes b.lexemes := by
  cases h with
  | plain start text _ _ => exact .cons (alike_self _) _
  | newline start =>
    rcases newline_cases src start a with hread | ⟨x, xs, hlex, -, hread⟩
    · rw [hread]
      exact .cons (alike_self _) _
    · rw [hread]
      refine ⟨[], { x with breaks := x.breaks + 1 } :: xs, rfl, ?_⟩
      rw [hlex]
      exact .cons (.inl rfl) (alike_self xs)
  | word start cls text _ => exact .cons (alike_self _) _
  | scope start text _ =>
    split_ifs with hword
    · exact .cons (alike_retype hword rfl) _
    · exact .cons (alike_self _) _
  | round start text _ =>
    obtain ⟨b, bracket, owner, hopen, hb⟩ := exists_openRound src start text a
    have hname : List.Forall₂ Lexeme.Alike b.lexemes a.lexemes := by
      rcases hb with rfl | ⟨hword, rfl | rfl⟩
      · exact alike_self _
      · exact alike_retype hword rfl
      · exact alike_retype hword rfl
    rw [hopen]
    exact .cons hname _
  | opening start text _ _ => exact .cons (alike_self _) _
  | @closing fits alone start text _ _ =>
    rcases closeBracket_cases src fits alone start text a with ⟨-, hread⟩ | ⟨inner, o, outer, c, -, -, -, hc, hread⟩
    · rw [hread]
      exact .cons (alike_self _) _
    · rw [hread]
      rcases hc with rfl | ⟨n, rfl⟩
      · exact .cons (alike_self _) _
      · exact .cons (alike_self _) _
  | question start text _ => exact .cons (alike_self _) _
  | colon start text _ =>
    rcases colon_cases src start text a with ⟨-, hread⟩ | ⟨rest, -, hread⟩
    · rw [hread]
      exact .cons (alike_self _) _
    · rw [hread]
      exact .cons (alike_self _) _
  | semicolon start text _ => exact .cons (alike_self _) _

theorem grows_directive (src : Source) (start : Nat) (a : Annotator) : Grows a.lexemes (a.directive src start).lexemes := by
  obtain ⟨new, hlex, -⟩ := exists_new_directive src start a
  exact ⟨new, a.lexemes, hlex, alike_self _⟩

/-- The lexeme with `n` others in front of it has some kind. -/
def KindAt (kind : Kind) (n : Nat) (a : Annotator) : Prop := ∃ p x q, a.lexemes = p ++ x :: q ∧ q.length = n ∧ x.kind = kind

/-- So what a colon was read as it stays. -/
theorem KindAt.grows {n : Nat} (h : KindAt kind n a) (hkind : kind.isIdle = false) (hgrows : Grows a.lexemes b.lexemes) :
    KindAt kind n b := by
  obtain ⟨p, x, q, hlex, rfl, rfl⟩ := h
  exact hgrows.exists_kind hlex hkind

end Annotator

namespace Source

open Annotator

variable {src : Source} {ts behind : List Token} {pos : Nat} {a : Annotator} {ops : List Text} {kind : Kind}

/-- What an operator is read as, and is no word, it stays. -/
theorem Meets.kind_read {op : Text} (h : src.Meets ts op pos a ops behind) (hkind : kind.isIdle = false)
    (hread : KindAt kind a.lexemes.length (a.operator src pos op)) : ((src.read ts).lexeme (some a.lexemes.length)).kind = kind := by
  have hkeeps : KindAt kind a.lexemes.length (src.annotate ts) := by
    rw [h.annotate_eq]
    have hmove : ∀ b c, KindAt kind a.lexemes.length b → CodeMove src b c → KindAt kind a.lexemes.length c :=
      fun b c hb hstep => hb.grows hkind hstep.grows
    have hops : ∀ op ∈ ops, op ≠ [] := fun op hop => (h.mem_cutOperators op hop).elim fun _ => ne_nil_of_mem_cutOperators
    exact tokens_invariant hmove (fun b start hb => hb.grows hkind (grows_directive src start b)) h.text_ne_nil
      ((moves_operators hops _ _).invariant hmove hread)
  obtain ⟨p, x, q, hlex, hlength, rfl⟩ := hkeeps
  rw [← hlength, lexeme_read hlex]

/-- In a source in which no directive goes to another branch, every `:` is read as a colon. It is one of a conditional expression
exactly if a question mark waits for it that was read while the very same brackets were open. -/
theorem colons_decided (hstays : ∀ e ∈ (src.annotate ts).trace, e.switchesBranch = false) :
    (∀ pos a ops behind, src.Meets ts (Text.ofString ":") pos a ops behind →
      ((src.read ts).lexeme (some a.lexemes.length)).kind = .condColon ∨ ((src.read ts).lexeme (some a.lexemes.length)).kind = .colon) ∧
    ∀ before x behind, (src.read ts).lexemes = before ++ x :: behind →
      (x.kind = .condColon ∨ x.kind = .colon →
        (x.kind = .condColon ↔ unanswered (openBehind before.reverse) before.reverse ≠ [])) ∧
      ∀ i ∈ unanswered (openBehind before.reverse) before.reverse, ∃ q, before[i]? = some q ∧ q.kind = .question ∧
        openBehind (before.take i).reverse = openBehind before.reverse := by
  refine ⟨?_, ?_⟩
  · intro pos a ops behind hmeets
    have hread : ∃ x : Lexeme, (a.colon src pos (Text.ofString ":")).lexemes = x :: a.lexemes ∧
        (x.kind = .condColon ∨ x.kind = .colon) := by
      rcases colon_cases src pos (Text.ofString ":") a with ⟨-, hread⟩ | ⟨rest, -, hread⟩
      · rw [hread]
        exact ⟨_, rfl, .inr rfl⟩
      · rw [hread]
        exact ⟨_, rfl, .inl rfl⟩
    obtain ⟨x, hlex, hk⟩ := hread
    exact hk.imp (fun hk => hmeets.kind_read rfl ⟨[], x, a.lexemes, hlex, rfl, hk⟩)
      fun hk => hmeets.kind_read rfl ⟨[], x, a.lexemes, hlex, rfl, hk⟩
  · intro before x behind hsplit
    refine ⟨?_, ?_⟩
    · have hdecided := (matched_annotate hstays).decided
      have hlex : (src.annotate ts).lexemes = behind.reverse ++ x :: before.reverse := by
        rw [lexemes_read, List.reverse_eq_iff] at hsplit
        rw [hsplit, List.reverse_append, List.reverse_cons, List.append_assoc, List.singleton_append]
      rw [hlex] at hdecided
      obtain ⟨hcond, hcolon, -⟩ := hdecided.of_append
      rintro (hk | hk)
      · exact iff_of_true hk (hcond hk)
      · exact iff_of_false (by simp [hk]) (not_not.2 (hcolon hk))
    · intro i hi
      obtain ⟨newer, q, older, hbefore, rfl, hq, hopened⟩ := exists_question hi
      rw [List.reverse_eq_iff] at hbefore
      have hsplit : before = older.reverse ++ q :: newer.reverse := by
        rw [hbefore, List.reverse_append, List.reverse_cons, List.append_assoc, List.singleton_append]
      refine ⟨q, ?_, hq, ?_⟩
      · rw [hsplit, List.getElem?_append_right (by simp)]
        simp
      · rw [← hopened, hsplit, List.take_left' List.length_reverse, List.reverse_reverse]

namespace ColonsAux

/-- The tokens in front of the first colon: a question mark, and a call with another one in a bracket that nothing closes. -/
def ternaryFront : List Token :=
  [⟨0, .name, Text.ofString "x"⟩, ⟨1, .operator, Text.ofString "?"⟩, ⟨2, .name, Text.ofString "f"⟩,
    ⟨3, .punctuation, Text.ofString "(["⟩, ⟨5, .name, Text.ofString "d"⟩, ⟨6, .operator, Text.ofString "?"⟩,
    ⟨7, .name, Text.ofString "e"⟩, ⟨8, .punctuation, Text.ofString ")"⟩, ⟨9, .whitespace, Text.ofString " "⟩]

/-- The tokens behind that colon: another one behind a semicolon. -/
def ternaryRest : List Token :=
  [⟨11, .name, Text.ofString "y"⟩, ⟨12, .punctuation, Text.ofString ";"⟩, ⟨13, .name, Text.ofString "z"⟩,
    ⟨14, .operator, Text.ofString ":"⟩]

/-- All the tokens. -/
def ternaryTokens : List Token := ternaryFront ++ ⟨10, .operator, Text.ofString ":"⟩ :: ternaryRest

/-- The source that they tile. -/
def ternarySource : Source := { text := ternaryTokens.flatMap (·.text) }

/-- The state in front of the first colon. -/
def beforeColon : Annotator := ({} : Annotator).tokens ternarySource ternaryFront

theorem meets_colon : ternarySource.Meets ternaryTokens (Text.ofString ":") 10 beforeColon [] ternaryRest :=
  ⟨ternaryFront, ⟨10, .operator, Text.ofString ":"⟩, [], beforeColon, by decide +kernel, rfl, by decide +kernel, by decide +kernel, rfl,
    rfl⟩

end ColonsAux

open ColonsAux in
/-- The colon answers the question mark in front of the call, not the one that was left behind in the bracket. -/
theorem colons_decided_ternary : (∀ e ∈ (ternarySource.annotate ternaryTokens).trace, e.switchesBranch = false) ∧
    ((ternarySource.read ternaryTokens).lexeme (some 9)).kind = .condColon := by
  have hstays : ∀ e ∈ (ternarySource.annotate ternaryTokens).trace, e.switchesBranch = false := by decide +kernel
  obtain ⟨hmet, hcolons⟩ := colons_decided hstays
  have hsplit : (ternarySource.read ternaryTokens).lexemes = (ternarySource.read ternaryTokens).lexemes.take 9 ++
      (ternarySource.read ternaryTokens).lexeme (some 9) :: (ternarySource.read ternaryTokens).lexemes.drop 10 := by
    decide +kernel
  have hlength : beforeColon.lexemes.length = 9 := by decide +kernel
  have hkind := hmet _ _ _ _ meets_colon
  rw [hlength] at hkind
  exact ⟨hstays, ((hcolons _ _ _ hsplit).1 hkind).2 (by decide +kernel)⟩

end Source

end CodeGroom
