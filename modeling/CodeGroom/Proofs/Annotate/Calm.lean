import CodeGroom.Proofs.Annotate.LookAhead
import CodeGroom.Proofs.Annotate.Steps

/-!
# Reading inside of a bracket

While a bracket is open, most of what is read leaves it and all brackets behind it open, is deeper than the bracket, and does not
end an expression: everything but a few operators.
-/

namespace CodeGroom

/-- Whether a lexeme is an operator that ends an expression. -/
def Lexeme.endsExpression (x : Lexeme) : Bool :=
  x.kind = .semicolon || x.kind = .question || x.kind = .opening .brace || x.kind = .closing .brace ||
    x.kind = .logical && Annotator.enders.contains x.text

/-- Whether a lexeme stands outside of a bracket that `d` others enclose, or ends the expression in it. -/
def Lexeme.leaves (d : Nat) (x : Lexeme) : Bool := x.depth ≤ d || x.endsExpression

namespace Annotator

variable {src : Source} {a b c : Annotator} {d : Nat}

/-- The number of lexemes that leave a bracket that `d` others enclose. -/
def leavers (d : Nat) (a : Annotator) : Nat := a.lexemes.countP (·.leaves d)

/-- The same brackets are open in `b` as in `a`, and nothing read between the two leaves a bracket that `d` others enclose. -/
structure Calm (d : Nat) (a b : Annotator) : Prop where
  opened : b.opened = a.opened
  leavers : b.leavers d = a.leavers d

theorem Calm.refl (d : Nat) (a : Annotator) : Calm d a a := ⟨rfl, rfl⟩

theorem Calm.trans (h : Calm d a b) (h' : Calm d b c) : Calm d a c :=
  ⟨h'.opened.trans h.opened, h'.leavers.trans h.leavers⟩

theorem Calm.lt_depth (h : Calm d a b) (hd : d < a.depth) : d < b.depth := by
  rwa [depth, h.opened]

/-- A lexeme that ends no expression is read inside of the bracket. -/
theorem leavers_add {kind : Kind} {text : Text} (hd : d < a.depth) (hk : Lexeme.endsExpression { kind, text } = false) (start : Nat)
    (owner : Kind) (directive : Bool) : (a.add src kind start text owner directive).leavers d = a.leavers d := by
  refine List.countP_cons_of_neg ?_
  rw [Lexeme.leaves, Bool.or_eq_true, decide_eq_true_eq, not_or]
  refine ⟨?_, by rwa [Bool.not_eq_true]⟩
  exact Int.not_le.2 (Int.ofNat_lt.2 hd)

theorem calm_addPlain {kind : Kind} {text : Text} (hd : d < a.depth) (hk : Lexeme.endsExpression { kind, text } = false)
    (start : Nat) : Calm d a (a.addPlain src kind start text) :=
  ⟨rfl, leavers_add hd hk start .nothing false⟩

/-- The kinds of which no lexeme ends an expression, whatever its text. -/
theorem endsExpression_of_kind {kind : Kind} (h : kind ∉ [.semicolon, .question, .opening .brace, .closing .brace, .logical])
    (text : Text) : Lexeme.endsExpression { kind, text } = false := by
  simp_all [Lexeme.endsExpression]

/-- The last word becomes something else. -/
theorem calm_retype {kind : Kind} (hword : a.lastCode.kind = .word)
    (hk : kind ∉ [.semicolon, .question, .opening .brace, .closing .brace, .logical]) : Calm d a (a.retype kind) := by
  refine ⟨rfl, ?_⟩
  obtain ⟨p, x, q, hlex, hlex', hx, -⟩ := exists_retype kind hword
  have hsame : Lexeme.leaves d { x with kind } = x.leaves d := by
    have hends : x.endsExpression = false := by simp [Lexeme.endsExpression, hx]
    have hends' : Lexeme.endsExpression { x with kind } = false := endsExpression_of_kind hk x.text
    rw [Lexeme.leaves, Lexeme.leaves, hends, hends']
  rw [leavers, leavers, hlex', hlex, List.countP_append, List.countP_append, List.countP_cons, List.countP_cons, hsame]

theorem calm_newline (hd : d < a.depth) (start : Nat) : Calm d a (a.newline src start) := by
  rcases newline_cases src start a with hread | ⟨x, xs, hlex, -, hread⟩
  · rw [hread]
    exact calm_addPlain hd rfl start
  · rw [hread]
    refine ⟨rfl, ?_⟩
    rw [leavers, leavers, hlex, List.countP_cons, List.countP_cons]
    rfl

theorem calm_sign (hd : d < a.depth) (start : Nat) (x : Symbol) : Calm d a (a.sign src start x) := by
  refine calm_addPlain hd (endsExpression_of_kind ?_ _) start
  split_ifs <;> decide

theorem calm_colon (hd : d < a.depth) (start : Nat) (text : Text) : Calm d a (a.colon src start text) := by
  rcases colon_cases src start text a with ⟨-, hread⟩ | ⟨rest, -, hread⟩
  · rw [hread]
    exact calm_addPlain hd (endsExpression_of_kind (by decide) _) start
  · have hasked : Calm d a { a with questions := rest } := ⟨rfl, rfl⟩
    rw [hread]
    refine hasked.trans (calm_addPlain (hasked.lt_depth hd) ?_ start)
    exact endsExpression_of_kind (by decide) _

/-- No word ends an expression. -/
theorem endsExpression_word (cls : TokenClass) (text : Text) (before : Kind) :
    Lexeme.endsExpression { kind := wordKind cls text before, text } = false := by
  have hkey : Lexeme.endsExpression { kind := (keywordKinds.lookup text).getD .keyword, text } = false := by
    cases hl : keywordKinds.lookup text with
    | none => rfl
    | some k =>
      have htable : ∀ p ∈ keywordKinds, Lexeme.endsExpression { kind := p.2, text := p.1 } = false := by decide
      exact htable _ (mem_of_lookup hl)
  unfold wordKind
  by_cases htype : cls.within .keywordType = true
  · rw [if_pos htype]
    rfl
  · rw [if_neg htype]
    by_cases hkeyword : cls.within .keyword = true
    · rw [if_pos hkeyword]
      split
      · split_ifs <;> rfl
      · exact hkey
    · rw [if_neg hkeyword]
      split_ifs <;> rfl

/-- The operators that open or close a bracket, or end an expression. -/
def Moves (op : Text) : Prop :=
  op ∈ enders ∨ opens? op ≠ none ∨ closes? op ≠ none ∨ op ∈ ["<", ">", ">>"].map Text.ofString

/-- Any other operator is read inside of the bracket. -/
theorem calm_operator {op : Text} (hd : d < a.depth) (hop : ¬Moves op) (start : Nat) : Calm d a (a.operator src start op) := by
  simp only [Moves, not_or, not_not] at hop
  obtain ⟨henders, hopens, hcloses, hangles⟩ := hop
  unfold operator
  split
  · cases hopens
  · cases hcloses
  · cases hopens
  · cases hcloses
  · exact absurd (by decide) henders
  · exact absurd (by decide) henders
  · exact absurd (by decide) hangles
  · exact absurd (by decide) hangles
  · exact absurd (by decide) hangles
  · exact calm_colon hd start _
  · exact absurd (by decide) henders
  · exact absurd (by decide) henders
  · split_ifs with hword
    · have hretype : Calm d a (a.retype .type) := calm_retype hword (by decide)
      exact hretype.trans (calm_addPlain (hretype.lt_depth hd) (endsExpression_of_kind (by decide) _) start)
    · exact calm_addPlain hd (endsExpression_of_kind (by decide) _) start
  · exact calm_sign hd start _
  · exact calm_sign hd start _
  · refine calm_addPlain hd ?_ start
    cases hl : operatorKinds.lookup op with
    | none => exact endsExpression_of_kind (by decide) op
    | some k =>
      have htable : ∀ p ∈ operatorKinds, p.1 ∉ enders → Lexeme.endsExpression { kind := p.2, text := p.1 } = false := by decide
      exact htable _ (mem_of_lookup hl) henders

theorem calm_names (hd : d < a.depth) (cls : TokenClass) (ws : List Text) (start : Nat) : Calm d a (names src cls start ws a) := by
  have hword : ∀ {a : Annotator} (cls : TokenClass) (start : Nat) (w : Text), d < a.depth →
      Calm d a (if w = [] then a else a.word src start cls w) := by
    intro a cls start w hd
    split_ifs
    · exact .refl d a
    · exact calm_addPlain hd (endsExpression_word _ _ _) start
  induction ws generalizing start a with
  | nil => exact .refl d a
  | cons w ws ih =>
    cases ws with
    | nil => exact hword cls start w hd
    | cons w' ws =>
      have hscope : ∀ {b : Annotator}, Calm d a b → Calm d a (b.operator src (start + w.length) (Text.ofString "::")) :=
        fun hb => hb.trans (calm_operator (hb.lt_depth hd) (by unfold Moves; decide) _)
      have hfirst := hscope (hword .name start w hd)
      exact hfirst.trans (ih (hfirst.lt_depth hd) _)

theorem calm_number (hd : d < a.depth) (start : Nat) (cls : TokenClass) (text : Text) : Calm d a (a.number src start cls text) := by
  have hkind : (if cls.within .numberFloat = true then Kind.float else Kind.integer) ∉
      [.semicolon, .question, .opening .brace, .closing .brace, .logical] := by
    split_ifs <;> decide
  unfold number
  dsimp only
  generalize (if cls.within .numberFloat = true then Kind.float else Kind.integer) = kind at hkind
  split
  · rename_i x rest
    split_ifs
    · have hsign : Calm d a (a.sign src start x) := calm_sign hd start x
      exact hsign.trans (calm_addPlain (hsign.lt_depth hd) (endsExpression_of_kind hkind _) _)
    · exact calm_addPlain hd (endsExpression_of_kind hkind _) start
  · exact calm_addPlain hd (endsExpression_of_kind hkind _) start

end Annotator

/-- Classes of which one is a part begin alike. -/
theorem TokenClass.head?_of_within {cls d : TokenClass} {s : String} (h : cls.within d = true) (hd : d.path.head? = some s) :
    cls.path.head? = some s := by
  obtain ⟨more, hpath⟩ := List.isPrefixOf_iff_prefix.1 h
  rw [← hpath, List.head?_append, hd, Option.some_or]

/-- A token that is read as operators is one of operators or punctuation and nothing else. -/
theorem Token.within_of_operators {t : Token} (h : t.operators ≠ []) :
    (t.cls.within .operator || t.cls.within .punctuation) = true ∧ t.text.isBlank = false ∧
      ∀ s, t.cls.path.head? = some s → s = "Operator" ∨ s = "Punctuation" := by
  unfold Token.operators at h
  split_ifs at h with hcls
  · rw [Bool.and_eq_true, Bool.not_eq_true'] at hcls
    refine ⟨hcls.1, hcls.2, fun s hs => ?_⟩
    rcases Bool.or_eq_true_iff.1 hcls.1 with hop | hpunct
    · exact .inl (Option.some.inj (hs.symm.trans (TokenClass.head?_of_within hop rfl)))
    · exact .inr (Option.some.inj (hs.symm.trans (TokenClass.head?_of_within hpunct rfl)))
  · exact absurd rfl h

namespace Annotator

variable {src : Source} {a : Annotator} {d : Nat} {t : Token}

/-- A token of operators is read operator by operator. -/
theorem token_of_operators (h : t.operators ≠ []) (hresume : a.resume ≤ t.start) :
    token src a t = operators src t.start t.operators a := by
  obtain ⟨hcls, hblank, hhead⟩ := Token.within_of_operators h
  have hother : ∀ {e : TokenClass} {s : String}, e.path.head? = some s → s ≠ "Operator" → s ≠ "Punctuation" →
      t.cls.within e = false := by
    intro e s he hop hpunct
    rw [Bool.eq_false_iff]
    intro hwithin
    rcases hhead s (TokenClass.head?_of_within hwithin he) with heq | heq
    · exact hop heq
    · exact hpunct heq
  have hfeed : t.text ≠ [Text.lineFeed] := by
    intro hfeed
    rw [hfeed] at hblank
    revert hblank
    decide
  rw [token, if_neg (Nat.not_lt.2 hresume), if_neg hfeed, hother (e := .directive) rfl (by decide) (by decide),
    hother (e := .comment) rfl (by decide) (by decide), hblank, hother (e := .string) rfl (by decide) (by decide),
    hother (e := .number) rfl (by decide) (by decide), hother (e := .keyword) rfl (by decide) (by decide),
    hother (e := .name) rfl (by decide) (by decide), hcls, Token.operators_eq h]
  rfl

/-- A token that is neither operators nor a directive is read inside of the bracket. -/
theorem calm_token (hd : d < a.depth) (h : t.operators = []) (hdir : t.cls.within .directive = false) :
    Calm d a (token src a t) := by
  unfold token
  rw [hdir]
  simp only [Bool.false_and, Bool.false_eq_true, if_false]
  split_ifs with h1 h2 h3 h4 h5 h6 h7 h8
  · exact .refl d a
  · exact calm_newline hd _
  · exact calm_addPlain hd (endsExpression_of_kind (by decide) _) _
  · exact .refl d a
  · exact calm_addPlain hd (endsExpression_of_kind (by decide) _) _
  · exact calm_number hd _ _ _
  · exact calm_names hd _ _ _
  · rw [Token.operators, h8, Bool.true_and, if_pos (by simpa using h4)] at h
    rw [h]
    exact .refl d a
  · exact calm_addPlain hd (endsExpression_of_kind (by decide) _) _

end Annotator

end CodeGroom
