import CodeGroom.Annotate.Reading
import CodeGroom.Proofs.Bracket.Nesting
import Mathlib.Data.List.Basic
import Mathlib.Logic.Relation
import Mathlib.Tactic.SplitIfs

/-!
# What reading consists of

Whatever a token is, reading it is a sequence of a few moves: a lexeme that stands for itself, a word, a bracket, one of the
operators that look at what was read before them, a line feed, a directive. Every move is one function of the reader, so what is
proved of these functions holds of everything that is read.
-/

namespace CodeGroom

/-- Whether two brackets are written alike: they have the same shape, or both are round. -/
def Bracket.alike (b b' : Bracket) : Bool := b = b' || b.isRound && b'.isRound

theorem Bracket.alike_self (b : Bracket) : b.alike b = true := by
  simp [alike]

/-- A round bracket is written like every round one. -/
theorem Bracket.alike_of_round {b : Bracket} (h : b.isRound = true) (b' : Bracket) : b.alike b' = b'.isRound := by
  by_cases hb : b = b'
  · simp [alike, ← hb, h]
  · simp [alike, hb, h]

/-- Any other bracket is written like those of its shape only. -/
theorem Bracket.alike_of_not_round {b : Bracket} (h : b.isRound = false) (b' : Bracket) : b.alike b' = decide (b' = b) := by
  simp [alike, h, eq_comm]

/-- Brackets that are written alike are written like the same ones. -/
theorem Bracket.alike_congr {b b' : Bracket} (h : b.alike b' = true) (u : Bracket) : b'.alike u = b.alike u := by
  simp only [alike, Bool.or_eq_true, decide_eq_true_eq, Bool.and_eq_true] at h
  rcases h with rfl | ⟨hb, hb'⟩
  · rfl
  · rw [alike_of_round hb, alike_of_round hb']

/-- Whether a lexeme of this kind is read without a look at those before it, and changes nothing for those behind it but that it
stands there. -/
def Kind.isPlain : Kind → Bool
  | comment | integer | float | plusSign | minusSign | string | comma | compare | logical | assign | arith | member | other => true
  | _ => false

namespace Annotator

variable {src : Source} {a b : Annotator}

/-- A move of reading code, comments and line feeds. A lexeme without symbols directly follows the one before it. A closing bracket
fits every bracket that is written alike. -/
inductive CodeMove (src : Source) : Annotator → Annotator → Prop where
  | plain {a : Annotator} {kind : Kind} (start : Nat) (text : Text) :
      kind.isPlain = true → (text ≠ [] ∨ a.covered = start) → CodeMove src a (a.addPlain src kind start text)
  | newline {a : Annotator} (start : Nat) : CodeMove src a (a.newline src start)
  | word {a : Annotator} (start : Nat) (cls : TokenClass) (text : Text) : text ≠ [] → CodeMove src a (a.word src start cls text)
  | scope {a : Annotator} (start : Nat) (text : Text) : text ≠ [] →
      CodeMove src a ((if a.lastCode.kind = .word then a.retype .type else a).addPlain src .qualifier start text)
  | round {a : Annotator} (start : Nat) (text : Text) : text ≠ [] → CodeMove src a (a.openRound src start text)
  | opening {a : Annotator} {bracket : Bracket} (start : Nat) (text : Text) :
      bracket.isRound = false → text ≠ [] → CodeMove src a (a.openBracket src bracket start text .nothing)
  | closing {a : Annotator} {fits : Bracket → Bool} {alone : Bracket} (start : Nat) (text : Text) :
      (∀ b, fits b = alone.alike b) → text ≠ [] → CodeMove src a (a.closeBracket src fits alone start text)
  | question {a : Annotator} (start : Nat) (text : Text) : text ≠ [] →
      CodeMove src a ({ a with questions := a.depth :: a.questions }.addPlain src .question start text)
  | colon {a : Annotator} (start : Nat) (text : Text) : text ≠ [] → CodeMove src a (a.colon src start text)
  | semicolon {a : Annotator} (start : Nat) (text : Text) : text ≠ [] →
      CodeMove src a ({ a with questions := a.questions.filter (· < a.depth) }.addPlain src .semicolon start text)

/-- Any number of moves. -/
abbrev CodeMoves (src : Source) : Annotator → Annotator → Prop := Relation.ReflTransGen (CodeMove src)

theorem CodeMove.moves (h : CodeMove src a b) : CodeMoves src a b := Relation.ReflTransGen.single h

/-- What every move preserves, any number of moves preserves. -/
theorem CodeMoves.invariant {P : Annotator → Prop} (hmove : ∀ a b, P a → CodeMove src a b → P b) (h : CodeMoves src a b)
    (ha : P a) : P b := by
  induction h with
  | refl => exact ha
  | tail _ hlast ih => exact hmove _ _ ih hlast

theorem moves_sign (start : Nat) (x : Symbol) (a : Annotator) : CodeMove src a (a.sign src start x) := by
  refine .plain start [x] ?_ (.inl (List.cons_ne_nil _ _))
  split_ifs <;> rfl

theorem moves_closeAngle (start : Nat) (a : Annotator) : CodeMove src a (a.closeAngle src start) := by
  unfold closeAngle
  split_ifs
  · exact .closing _ _ (fun b => (Bracket.alike_of_not_round rfl b).symm) (List.cons_ne_nil _ _)
  · exact .plain _ _ rfl (.inl (List.cons_ne_nil _ _))

/-- What a table gives is in the table. -/
theorem mem_of_lookup {table : List (Text × Kind)} {k : Kind} {t : Text} (h : table.lookup t = some k) : (t, k) ∈ table := by
  obtain ⟨l₁, l₂, heq, -⟩ := List.lookup_eq_some_iff.1 h
  simp [heq]

/-- The kinds that a word is read as. -/
def wordKinds : List Kind :=
  [.type, .keyword, .ifWord, .elseIfWord, .elseWord, .switchWord, .whileWord, .forWord, .doWord, .returnWord, .caseWord, .logical,
    .compare, .defName, .word]

theorem mem_wordKinds (cls : TokenClass) (text : Text) (before : Kind) : wordKind cls text before ∈ wordKinds := by
  have hkey : (keywordKinds.lookup text).getD .keyword ∈ wordKinds := by
    have htable : ∀ p ∈ keywordKinds, p.2 ∈ wordKinds := by decide
    cases hl : keywordKinds.lookup text with
    | none => decide
    | some k => exact htable _ (mem_of_lookup hl)
  unfold wordKind
  by_cases htype : cls.within .keywordType = true
  · rw [if_pos htype]
    decide
  · rw [if_neg htype]
    by_cases hkeyword : cls.within .keyword = true
    · rw [if_pos hkeyword]
      split
      · split <;> decide
      · exact hkey
    · rw [if_neg hkeyword]
      split_ifs <;> decide

/-- A `(` is read as a round bracket, and the last word before it may have turned out to be a name with a parenthesis. -/
theorem exists_openRound (src : Source) (start : Nat) (text : Text) (a : Annotator) :
    ∃ b bracket owner, a.openRound src start text = b.openBracket src bracket start text owner ∧
      (b = a ∨ a.lastCode.kind = .word ∧ (b = a.retype .callName ∨ b = a.retype .defName)) := by
  obtain ⟨b, hb⟩ : ∃ b, b = if a.lastCode.kind = .word then
      a.retype (if a.codeBeforeLast = .type ∨ a.codeBeforeLast = .word then .defName else .callName) else a := ⟨_, rfl⟩
  have hsource : b = a ∨ a.lastCode.kind = .word ∧ (b = a.retype .callName ∨ b = a.retype .defName) := by
    rw [hb]
    split_ifs with hword
    · exact .inr ⟨hword, .inr rfl⟩
    · exact .inr ⟨hword, .inl rfl⟩
    · exact .inl rfl
  unfold openRound
  rw [← hb]
  dsimp only
  split_ifs
  · exact ⟨b, _, _, rfl, hsource⟩
  · exact ⟨b, _, _, rfl, hsource⟩
  · exact ⟨b, _, _, rfl, hsource⟩

/-- A closing bracket fits no open bracket and closes nothing, or takes the innermost one that it fits off, along with all that were
opened behind that one. -/
theorem closeBracket_cases (src : Source) (fits : Bracket → Bool) (alone : Bracket) (start : Nat) (text : Text) (a : Annotator) :
    ((∀ o ∈ a.opened, fits o.bracket = false) ∧ a.closeBracket src fits alone start text =
      (a.note (.unmatchedCloser text (src.lineAt start))).addPlain src (.closing alone) start text) ∨
    ∃ inner o outer c, a.opened = inner ++ o :: outer ∧ (∀ u ∈ inner, fits u.bracket = false) ∧ fits o.bracket = true ∧
      (c = a ∨ ∃ n, c = a.note (.unclosedOpeners n text (src.lineAt start))) ∧ a.closeBracket src fits alone start text =
        { c with opened := outer, questions := c.questions.filter (· ≤ outer.length) }.add src (.closing o.bracket) start text o.owner
          false := by
  cases hdrop : a.opened.dropWhile (!fits ·.bracket) with
  | nil =>
    refine .inl ⟨fun o ho => ?_, ?_⟩
    · simpa using List.dropWhile_eq_nil_iff.1 hdrop o ho
    · rw [closeBracket, hdrop]
  | cons o outer =>
    obtain ⟨inner, hsplit, hinner, hfit⟩ := dropWhile_eq_cons_iff.1 hdrop
    refine .inr ⟨inner, o, outer, if a.opened.length - (outer.length + 1) = 0 then a else
      a.note (.unclosedOpeners (a.opened.length - (outer.length + 1)) text (src.lineAt start)), hsplit,
      fun u hu => by simpa using hinner u hu, by simpa using hfit, ?_, ?_⟩
    · split_ifs
      · exact .inl rfl
      · exact .inr ⟨_, rfl⟩
    · rw [closeBracket, hdrop]

/-- A closing bracket is read outside of what it closes. -/
theorem exists_closing (src : Source) (fits : Bracket → Bool) (alone : Bracket) (start : Nat) (text : Text) (a : Annotator) :
    ∃ x k, (a.closeBracket src fits alone start text).lexemes = x :: a.lexemes ∧ x.kind = .closing k ∧ x.inDirective = false ∧
      x.braceDepth = (a.closeBracket src fits alone start text).braceDepth := by
  rcases closeBracket_cases src fits alone start text a with ⟨-, hread⟩ | ⟨inner, o, outer, c, -, -, -, hc, hread⟩
  · rw [hread]
    exact ⟨_, _, rfl, rfl, rfl, rfl⟩
  · rw [hread]
    rcases hc with rfl | ⟨n, rfl⟩
    · exact ⟨_, _, rfl, rfl, rfl, rfl⟩
    · exact ⟨_, _, rfl, rfl, rfl, rfl⟩

/-- A line feed directly behind a line break makes that one longer, and any other one is a line break of its own. -/
theorem newline_cases (src : Source) (start : Nat) (a : Annotator) :
    a.newline src start = a.addPlain src .newline start [Text.lineFeed] ∨
      ∃ x xs, a.lexemes = x :: xs ∧ x.kind = .newline ∧
        a.newline src start = { a with lexemes := { x with breaks := x.breaks + 1 } :: xs, covered := start + 1 } := by
  unfold newline
  split
  · rename_i x xs hlex
    split_ifs with hx
    · simp only [Bool.and_eq_true] at hx
      exact .inr ⟨x, xs, hlex, of_decide_eq_true hx.1.1, rfl⟩
    · exact .inl rfl
  · exact .inl rfl

/-- A colon answers the latest question mark if that one waits at its depth. -/
theorem colon_cases (src : Source) (start : Nat) (text : Text) (a : Annotator) :
    (a.questions.head? ≠ some a.depth ∧ a.colon src start text = a.addPlain src .colon start text) ∨
      ∃ rest, a.questions = a.depth :: rest ∧
        a.colon src start text = { a with questions := rest }.addPlain src .condColon start text := by
  unfold colon
  split
  · rename_i q rest hq
    split_ifs with hdepth
    · exact .inr ⟨rest, hdepth ▸ hq, rfl⟩
    · refine .inl ⟨?_, rfl⟩
      rw [hq]
      exact fun heq => hdepth (Option.some.inj heq)
  · rename_i hq
    refine .inl ⟨?_, rfl⟩
    rw [hq]
    nofun

theorem isPlain_operatorKind (op : Text) : ((operatorKinds.lookup op).getD .arith).isPlain = true := by
  have htable : ∀ p ∈ operatorKinds, p.2.isPlain = true := by decide
  cases hl : operatorKinds.lookup op with
  | none => rfl
  | some k => exact htable _ (mem_of_lookup hl)

theorem moves_operator (start : Nat) {op : Text} (hop : op ≠ []) (a : Annotator) : CodeMoves src a (a.operator src start op) := by
  unfold operator
  split
  · exact (CodeMove.round _ _ hop).moves
  · exact (CodeMove.closing _ _ (fun b => (Bracket.alike_of_round rfl b).symm) hop).moves
  · exact (CodeMove.opening _ _ rfl hop).moves
  · exact (CodeMove.closing _ _ (fun b => (Bracket.alike_of_not_round rfl b).symm) hop).moves
  · exact (CodeMove.opening _ _ rfl hop).moves
  · exact (CodeMove.closing _ _ (fun b => (Bracket.alike_of_not_round rfl b).symm) hop).moves
  · split_ifs
    · exact (CodeMove.opening _ _ rfl hop).moves
    · exact (CodeMove.plain _ _ rfl (.inl hop)).moves
  · exact (moves_closeAngle _ _).moves
  · split_ifs
    · exact (moves_closeAngle _ _).moves.tail (moves_closeAngle _ _)
    · exact (CodeMove.plain _ _ rfl (.inl hop)).moves
  · exact (CodeMove.colon _ _ hop).moves
  · exact (CodeMove.question _ _ hop).moves
  · exact (CodeMove.semicolon _ _ hop).moves
  · exact (CodeMove.scope _ _ hop).moves
  · exact (moves_sign _ _ _).moves
  · exact (moves_sign _ _ _).moves
  · exact (CodeMove.plain _ _ (isPlain_operatorKind op) (.inl hop)).moves

theorem moves_operators {ops : List Text} (hops : ∀ op ∈ ops, op ≠ []) (start : Nat) (a : Annotator) :
    CodeMoves src a (operators src start ops a) := by
  induction ops generalizing start a with
  | nil => exact .refl
  | cons op ops ih =>
    have hrest := ih fun op' hop' => hops op' (List.mem_cons_of_mem _ hop')
    exact (moves_operator _ (hops op List.mem_cons_self) _).trans (hrest _ _)

/-- Every operator has symbols. -/
theorem ne_nil_of_mem_cutOperators {t op : Text} (h : op ∈ cutOperators t) : op ≠ [] := by
  have hcons : ∀ {first : Text} {ops : List Text}, first ≠ [] → (op ∈ ops → op ≠ []) → op ∈ first :: ops → op ≠ [] := by
    intro first ops hfirst hops hmem
    rcases List.mem_cons.1 hmem with rfl | hmem
    · exact hfirst
    · exact hops hmem
  fun_induction cutOperators t with
  | case1 x y z rest _ ih => exact hcons (List.cons_ne_nil _ _) ih h
  | case2 x y z rest _ _ ih => exact hcons (List.cons_ne_nil _ _) ih h
  | case3 x y z rest _ _ ih => exact hcons (List.cons_ne_nil _ _) ih h
  | case4 x y _ => exact List.mem_singleton.1 h ▸ List.cons_ne_nil _ _
  | case5 x y _ => rcases List.mem_pair.1 h with rfl | rfl <;> exact List.cons_ne_nil _ _
  | case6 x => exact List.mem_singleton.1 h ▸ List.cons_ne_nil _ _
  | case7 => cases h

theorem moves_names (cls : TokenClass) (ws : List Text) (start : Nat) (a : Annotator) :
    CodeMoves src a (names src cls start ws a) := by
  have hword : ∀ (cls : TokenClass) (start : Nat) (w : Text) (a : Annotator),
      CodeMoves src a (if w = [] then a else a.word src start cls w) := by
    intro cls start w a
    split_ifs with hw
    · exact .refl
    · exact (CodeMove.word _ _ _ hw).moves
  have hscope : Text.ofString "::" ≠ [] := by decide
  induction ws generalizing start a with
  | nil => exact .refl
  | cons w ws ih =>
    cases ws with
    | nil => exact hword cls start w a
    | cons w' ws => exact ((hword .name start w a).trans (moves_operator _ hscope _)).trans (ih _ _)

theorem moves_number (start : Nat) (cls : TokenClass) {text : Text} (ht : text ≠ []) (a : Annotator) :
    CodeMoves src a (a.number src start cls text) := by
  have hkind : (if cls.within .numberFloat = true then Kind.float else Kind.integer).isPlain = true := by
    split_ifs <;> rfl
  unfold number
  dsimp only
  generalize (if cls.within .numberFloat = true then Kind.float else Kind.integer) = kind at hkind
  split
  · rename_i x rest
    split_ifs
    · -- The digits directly follow the sign, so there may be none.
      exact (moves_sign _ _ _).moves.tail (.plain _ _ hkind (.inr rfl))
    · exact (CodeMove.plain _ _ hkind (.inl ht)).moves
  · exact (CodeMove.plain _ _ hkind (.inl ht)).moves

/-- Whether a token is read as a directive: it starts with `#` on a line without code. -/
def readsDirective (a : Annotator) (t : Token) : Bool :=
  t.cls.within .directive && t.text.trimStart.head? = some (.char '#') && !a.lineHasCode && a.resume ≤ t.start

/-- The place of the `#` that a token starts with, behind its white space. -/
def hashPlace (t : Token) : Nat := t.start + (t.text.length - t.text.trimStart.length)

/-- A token that has symbols starts a directive or is read in moves of code. -/
theorem directive_or_moves_token (src : Source) {t : Token} (ht : t.text ≠ []) (a : Annotator) :
    (a.readsDirective t = true ∧ token src a t = a.directive src (hashPlace t)) ∨ CodeMoves src a (token src a t) := by
  generalize hb : token src a t = b
  unfold token at hb
  split_ifs at hb with h1 h2 h3
  · exact .inr (hb ▸ .refl)
  · exact .inr (hb ▸ (CodeMove.newline _).moves)
  · refine .inl ⟨?_, hb.symm⟩
    rw [readsDirective, h3, Bool.true_and, decide_eq_true (Nat.not_lt.1 h1)]
  · exact .inr (hb ▸ (CodeMove.plain _ _ rfl (.inl ht)).moves)
  · exact .inr (hb ▸ .refl)
  · exact .inr (hb ▸ (CodeMove.plain _ _ rfl (.inl ht)).moves)
  · exact .inr (hb ▸ moves_number _ _ ht _)
  · exact .inr (hb ▸ moves_names _ _ _ _)
  · exact .inr (hb ▸ moves_operators (fun _ => ne_nil_of_mem_cutOperators) _ _)
  · exact .inr (hb ▸ (CodeMove.plain _ _ rfl (.inl ht)).moves)

/-- What every move and every directive preserves, reading tokens preserves. -/
theorem tokens_invariant {P : Annotator → Prop} (hmove : ∀ a b, P a → CodeMove src a b → P b)
    (hdirective : ∀ a start, P a → P (a.directive src start)) {ts : List Token} (ht : ∀ t ∈ ts, t.text ≠ []) (ha : P a) :
    P (a.tokens src ts) := by
  induction ts generalizing a with
  | nil => exact ha
  | cons t ts ih =>
    refine ih (fun u hu => ht u (List.mem_cons_of_mem _ hu)) ?_
    rcases directive_or_moves_token src (ht t List.mem_cons_self) a with ⟨-, hread⟩ | hmoves
    · rw [hread]
      exact hdirective a _ ha
    · exact hmoves.invariant hmove ha

end Annotator

end CodeGroom
