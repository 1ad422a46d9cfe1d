import CodeGroom.Proofs.Annotate.Closers
import CodeGroom.Proofs.Annotate.Covers

/-!
# Template brackets

A `<` is taken for a bracket of template arguments where a look-ahead finds a `>` for it. It is closed as one whenever it has its
match among the operators behind it, and the look-ahead is right about that where the symbols are the operators that it takes them
for. It can be wrong, as it does not tell operators from strings, nor `>` from `>=`, nor round brackets from square ones.
-/

namespace CodeGroom

/-- Among some lexemes, the one with `i` others in front of it opens an angle bracket, which is closed at the same depth, in front of
all that ends an expression. -/
def AngleClosed (xs : List Lexeme) (i : Nat) : Prop :=
  ∃ before x inner y behind, xs = before ++ x :: (inner ++ y :: behind) ∧ before.length = i ∧ x.kind = .opening .angle ∧
    y.kind = .closing .angle ∧ y.depth = x.depth ∧ ∀ z ∈ inner, x.depth < z.depth ∧ z.endsExpression = false

namespace Annotator

variable {src : Source} {a b c : Annotator} {u : Opener} {outer : List Opener}

/-- A bracket that is closed before anything leaves it is closed at its own depth, in front of all that ends an expression. -/
theorem angleClosed_of_closedOnTheWay {x : Lexeme} {q : List Lexeme} (h : ClosedOnTheWay src u outer c a) (hu : u.bracket = .angle)
    (hlex : c.lexemes = x :: q) (hk : x.kind = .opening .angle) (hdepth : x.depth = outer.length) (hrest : Steps src a b) :
    AngleClosed b.lexemes.reverse q.length := by
  obtain ⟨e, start, hfrom, hopened, hleavers, hto⟩ := h
  have hopener : c.lexemes = [] ++ x :: q := hlex
  obtain ⟨p, hp⟩ := Steps.keeps hfrom.toSteps hopener (hk ▸ rfl)
  obtain ⟨-, y, hy, hyk, hydepth⟩ := closes_angle src hopened hu start
  have hcloser : (e.closeAngle src start).lexemes = [] ++ y :: (p ++ x :: q) := by rw [hy, hp, List.nil_append]
  obtain ⟨p', hp'⟩ := Steps.keeps (hto.toSteps.trans hrest) hcloser (hyk ▸ rfl)
  refine ⟨q.reverse, x, p.reverse, y, p'.reverse, by rw [hp']; simp, List.length_reverse, hk, hyk, hydepth.trans hdepth.symm, ?_⟩
  have hnone : p.countP (·.leaves outer.length) = 0 := by
    rw [leavers, leavers, hp, hlex, List.countP_append] at hleavers
    omega
  intro z hz
  have hz := List.countP_eq_zero.1 hnone z (List.mem_reverse.1 hz)
  rw [Lexeme.leaves, Bool.or_eq_true, decide_eq_true_eq, not_or, Int.not_le, Bool.not_eq_true] at hz
  exact ⟨hdepth ▸ hz.1, hz.2⟩

/-- The `<` opens template arguments because the look-ahead says so: it stands behind a type or a name other than `template`, and
directly inside of no angle bracket. -/
structure OpensByLookAhead (src : Source) (pos : Nat) (a : Annotator) : Prop where
  name : a.lastCode.kind = .type ∨ a.lastCode.kind = .word
  noTemplate : a.lastCode.text ≠ Text.ofString "template"
  outside : a.innermost? ≠ some .angle
  ahead : opensTemplate src pos = true

/-- What opens by the look-ahead starts an angle bracket. -/
theorem OpensByLookAhead.startsAngle {pos : Nat} (h : OpensByLookAhead src pos a) : a.startsAngle src pos = true := by
  rw [Annotator.startsAngle, h.ahead, Bool.and_true, Bool.or_eq_true]
  exact .inr (by simpa using h.name)

/-- Operators are read one after another. -/
theorem operators_append (start : Nat) (ops more : List Text) (a : Annotator) :
    operators src start (ops ++ more) a = operators src (start + ops.flatten.length) more (operators src start ops a) := by
  induction ops generalizing start a with
  | nil => rfl
  | cons op ops ih =>
    rw [List.cons_append, operators, ih, List.flatten_cons, List.length_append, ← Nat.add_assoc]
    rfl

end Annotator

/-- Tokens that tile a text stand in the order of their places. -/
theorem Token.Tiles.le_start {pos : Nat} {text : Text} {ts : List Token} (h : Token.Tiles pos text ts) :
    ∀ t ∈ ts, pos ≤ t.start := by
  induction h with
  | nil => simp
  | cons hs _ ih =>
    refine List.forall_mem_cons.2 ⟨Nat.le_of_eq hs.symm, fun t ht => Nat.le_trans ?_ (ih t ht)⟩
    rw [Token.stop, hs]
    exact Nat.le_add_right _ _

/-- Tokens behind another one start no earlier. -/
theorem Token.Tiles.start_le {pos : Nat} {text : Text} {before behind : List Token} {t : Token}
    (h : Token.Tiles pos text (before ++ t :: behind)) : ∀ v ∈ behind, t.start ≤ v.start := by
  induction before generalizing pos text with
  | nil =>
    cases h with
    | cons _ hrest => exact fun v hv => Nat.le_trans (Nat.le_add_right _ _) (hrest.le_start v hv)
  | cons w before ih =>
    cases h with
    | cons _ hrest => exact ih hrest

namespace Source

open Annotator

variable {src : Source} {ts m behind : List Token} {op : Text} {pos : Nat} {a : Annotator} {ops : List Text}

/-- While the tokens of a source are read, an operator is met at a place in a state: `ops` are the operators behind it in its token,
and `behind` the tokens behind that one. -/
def Meets (src : Source) (ts : List Token) (op : Text) (pos : Nat) (a : Annotator) (ops : List Text) (behind : List Token) : Prop :=
  ∃ before t ops' b, Token.mergeRuns (Token.cutLines ts) = before ++ t :: behind ∧ ({} : Annotator).tokens src before = b ∧
    b.resume ≤ t.start ∧ t.operators = ops' ++ op :: ops ∧ pos = t.start + ops'.flatten.length ∧
    a = operators src t.start ops' b

/-- Behind an operator the rest of its token is read, and the tokens behind that one. -/
theorem Meets.annotate_eq (h : src.Meets ts op pos a ops behind) :
    src.annotate ts = (operators src (pos + op.length) ops (a.operator src pos op)).tokens src behind := by
  obtain ⟨before, t, ops', b, hpieces, hbefore, hresume, hops, rfl, rfl⟩ := h
  have hread : token src b t = operators src t.start t.operators b := token_of_operators (by simp [hops]) hresume
  rw [annotate, hpieces, tokens, List.foldl_append, List.foldl_cons, ← tokens, ← tokens, hbefore, hread, hops, operators_append]
  rfl

/-- What is met was cut from a token. -/
theorem Meets.mem_cutOperators (h : src.Meets ts op pos a ops behind) : ∀ op ∈ ops, ∃ t, op ∈ cutOperators t := by
  obtain ⟨before, t, ops', b, -, -, -, hops, -⟩ := h
  intro op hop
  have hcut := Token.operators_eq (t := t) (by simp [hops])
  exact ⟨t.text, by simp [← hcut, hops, hop]⟩

/-- No token behind is empty. -/
theorem Meets.text_ne_nil (h : src.Meets ts op pos a ops behind) : ∀ v ∈ behind, v.text ≠ [] := by
  obtain ⟨before, t, ops', b, hpieces, -⟩ := h
  have hall : ∀ v ∈ Token.mergeRuns (Token.cutLines ts), v.text ≠ [] := Token.text_ne_nil_of_mem_pieces
  rw [hpieces] at hall
  exact fun v hv => hall v (List.mem_append_right before (List.mem_cons_of_mem t hv))

/-- The reader goes on no later than at the tokens behind. -/
theorem Meets.resume_le (h : src.Meets ts op pos a ops behind) (htiles : Token.Tiles 0 src.text ts) :
    ∀ v ∈ behind, a.resume ≤ v.start := by
  obtain ⟨before, t, ops', b, hpieces, -, hresume, hops, -, rfl⟩ := h
  have hcut := Token.operators_eq (t := t) (by simp [hops])
  have hsteps : CodeSteps src b (operators src t.start ops' b) := by
    refine steps_operators (fun op hop => ne_nil_of_mem_cutOperators (t := t.text) ?_) _ _
    simp [← hcut, hops, hop]
  intro v hv
  have htiles := htiles.cutLines.mergeRuns
  rw [hpieces] at htiles
  rw [hsteps.resume_eq]
  exact Nat.le_trans hresume (htiles.start_le v hv)

/-- A `<` that opens template arguments because the look-ahead says so is closed as one if it has its match among the operators
behind it, with nothing but code up to there. And it has one wherever the symbols behind it are what the look-ahead takes them for. -/
theorem angle_closed (htiles : Token.Tiles 0 src.text ts) (h : src.Meets ts (Text.ofString "<") pos a ops (m ++ behind))
    (hahead : a.OpensByLookAhead src pos) (hcode : ∀ t ∈ m, t.cls.within .directive = false) :
    ((src.read ts).lexeme (some a.lexemes.length)).kind = .opening .angle ∧
      (matchesAngle 0 [] (ops ++ m.flatMap Token.operators) = true → AngleClosed (src.read ts).lexemes a.lexemes.length) ∧
      (PlainStretch ops m → matchesAngle 0 [] (ops ++ m.flatMap Token.operators) = true) := by
  let c := a.openBracket src .angle pos (Text.ofString "<") .nothing
  let u : Opener := ⟨a.lexemes.length, .angle, .nothing⟩
  have hopen : a.operator src pos (Text.ofString "<") = c := if_pos hahead.startsAngle
  obtain ⟨x, hlex, hk, -, hwithin⟩ : ∃ x : Lexeme, c.lexemes = x :: a.lexemes ∧ x.kind = .opening .angle ∧ x.owner = .nothing ∧
      x.ReadWithin a.opened := readWithin_add src (.opening .angle) pos (Text.ofString "<") .nothing false a
  have hops : ∀ op ∈ ops, op ≠ [] := fun op hop => (h.mem_cutOperators op hop).elim fun _ => ne_nil_of_mem_cutOperators
  have htext := List.forall_mem_append.1 h.text_ne_nil
  have hfirst : CodeSteps src c (operators src (pos + 1) ops c) := steps_operators hops _ _
  have hread : src.annotate ts = ((operators src (pos + 1) ops c).tokens src m).tokens src behind := by
    rw [h.annotate_eq, hopen, tokens, List.foldl_append]
    rfl
  have hrest : Steps src ((operators src (pos + 1) ops c).tokens src m) (src.annotate ts) := hread ▸ steps_of_tokens htext.2 _
  have hsecond : CodeSteps src (operators src (pos + 1) ops c) ((operators src (pos + 1) ops c).tokens src m) :=
    steps_tokens htext.1 hcode _
  refine ⟨?_, fun hmatch => ?_, fun hplain => hplain.matchesAngle h.mem_cutOperators⟩
  · have hopener : c.lexemes = [] ++ x :: a.lexemes := hlex
    obtain ⟨p, hp⟩ := Steps.keeps ((CodeSteps.toSteps (hfirst.trans hsecond)).trans hrest) hopener (hk ▸ rfl)
    rw [lexeme_read hp, hk]
  · have hinside : Inside src u a.opened c 0 [] c := ⟨.refl c, ⟨[], rfl, .angles (by simp) rfl⟩, rfl⟩
    have hclosed : ClosedOnTheWay src u a.opened c ((operators src (pos + 1) ops c).tokens src m) := by
      rcases hinside.operators rfl hops (pos + 1) hmatch with hclosed | ⟨n, brackets, hinside, hmatch⟩
      · exact hclosed.trans hsecond
      · have hresume : ∀ v ∈ m, (operators src (pos + 1) ops c).resume ≤ v.start := by
          intro v hv
          rw [hfirst.resume_eq]
          exact h.resume_le htiles v (List.mem_append_left _ hv)
        exact hinside.tokens rfl htext.1 hcode hresume hmatch
    rw [lexemes_read]
    exact angleClosed_of_closedOnTheWay hclosed rfl hlex hk hwithin.depth hrest

namespace AnglesAux

/-- A template with another one inside of it, and a call and a shift in parentheses. -/
def nestedSource : Source := { text := Text.ofString "map<set<f(a > b)>> m;", language := "cpp" }

/-- The tokens behind its first `<`, up to its end. -/
def argumentTokens : List Token :=
  [⟨4, .name, Text.ofString "set"⟩, ⟨7, .operator, Text.ofString "<"⟩, ⟨8, .name, Text.ofString "f"⟩,
    ⟨9, .punctuation, Text.ofString "("⟩, ⟨10, .name, Text.ofString "a"⟩, ⟨11, .whitespace, Text.ofString " "⟩,
    ⟨12, .operator, Text.ofString ">"⟩, ⟨13, .whitespace, Text.ofString " "⟩, ⟨14, .name, Text.ofString "b"⟩,
    ⟨15, .punctuation, Text.ofString ")>>"⟩]

/-- The tokens behind it. -/
def restTokens : List Token :=
  [⟨18, .whitespace, Text.ofString " "⟩, ⟨19, .name, Text.ofString "m"⟩, ⟨20, .punctuation, Text.ofString ";"⟩]

/-- All its tokens. -/
def nestedTokens : List Token :=
  ⟨0, .name, Text.ofString "map"⟩ :: ⟨3, .operator, Text.ofString "<"⟩ :: (argumentTokens ++ restTokens)

/-- The state in front of its first `<`. -/
def beforeAngle : Annotator := ({} : Annotator).tokens nestedSource [⟨0, .name, Text.ofString "map"⟩]

theorem meets_angle : nestedSource.Meets nestedTokens (Text.ofString "<") 3 beforeAngle [] (argumentTokens ++ restTokens) :=
  ⟨[⟨0, .name, Text.ofString "map"⟩], ⟨3, .operator, Text.ofString "<"⟩, [], beforeAngle, by decide +kernel, rfl, by decide +kernel,
    by decide +kernel, rfl, rfl⟩

theorem opensByLookAhead_angle : beforeAngle.OpensByLookAhead nestedSource 3 :=
  ⟨by decide +kernel, by decide +kernel, by decide +kernel, by decide +kernel⟩

theorem plainStretch_arguments : PlainStretch [] argumentTokens :=
  ⟨by decide +kernel, by decide +kernel, by decide +kernel, by decide +kernel⟩

end AnglesAux

open AnglesAux in
theorem angle_closed_nested : ((nestedSource.read nestedTokens).lexeme (some 1)).kind = .opening .angle ∧
    AngleClosed (nestedSource.read nestedTokens).lexemes 1 := by
  obtain ⟨hopening, hclosed, hplain⟩ := angle_closed (by decide +kernel) meets_angle opensByLookAhead_angle (by decide +kernel)
  exact ⟨hopening, hclosed (hplain plainStretch_arguments)⟩

namespace AnglesAux

/-- A comparison with a quoted `>`. -/
def quotedSource : Source := { text := Text.ofString "if (c < '>') d;\n", language := "cpp" }

/-- The tokens behind its `<`. -/
def quotedRest : List Token :=
  [⟨7, .whitespace, Text.ofString " "⟩, ⟨8, .stringChar, Text.ofString "'>'"⟩, ⟨11, .punctuation, Text.ofString ")"⟩,
    ⟨12, .whitespace, Text.ofString " "⟩, ⟨13, .name, Text.ofString "d"⟩, ⟨14, .punctuation, Text.ofString ";"⟩,
    ⟨15, .whitespace, Text.ofString "\n"⟩]

/-- The tokens in front of its `<`. -/
def quotedFront : List Token :=
  [⟨0, .keyword, Text.ofString "if"⟩, ⟨2, .whitespace, Text.ofString " "⟩, ⟨3, .punctuation, Text.ofString "("⟩,
    ⟨4, .name, Text.ofString "c"⟩, ⟨5, .whitespace, Text.ofString " "⟩]

/-- All its tokens. -/
def quotedTokens : List Token := quotedFront ++ ⟨6, .operator, Text.ofString "<"⟩ :: quotedRest

/-- The state in front of its `<`. -/
def beforeQuoted : Annotator := ({} : Annotator).tokens quotedSource quotedFront

theorem meets_quoted : quotedSource.Meets quotedTokens (Text.ofString "<") 6 beforeQuoted [] quotedRest :=
  ⟨quotedFront, ⟨6, .operator, Text.ofString "<"⟩, [], beforeQuoted, by decide +kernel, rfl, by decide +kernel, by decide +kernel,
    rfl, rfl⟩

theorem opensByLookAhead_quoted : beforeQuoted.OpensByLookAhead quotedSource 6 :=
  ⟨by decide +kernel, by decide +kernel, by decide +kernel, by decide +kernel⟩

end AnglesAux

open AnglesAux in
/-- The look-ahead takes a quoted `>` for an operator, so that the bracket stays open. -/
theorem not_angle_closed : ¬∀ (src : Source) (ts : List Token) (pos : Nat) (a : Annotator) (ops : List Text) (behind : List Token),
    src.language ≠ "c" → Token.Tiles 0 src.text ts → src.Meets ts (Text.ofString "<") pos a ops behind →
      a.OpensByLookAhead src pos → AngleClosed (src.read ts).lexemes a.lexemes.length := by
  intro hall
  obtain ⟨before, x, inner, y, behind, hlex, -, -, hy, -⟩ := hall quotedSource quotedTokens 6 beforeQuoted [] quotedRest (by decide)
    (by decide +kernel) meets_quoted opensByLookAhead_quoted
  have hnone : ∀ z ∈ (quotedSource.annotate quotedTokens).lexemes, z.kind ≠ .closing .angle := by decide +kernel
  refine hnone y ?_ hy
  rw [← List.mem_reverse, ← lexemes_read, hlex]
  simp

end Source

end CodeGroom
