import CodeGroom.Proofs.Annotate.Lossless

/-!
# Looking ahead for the end of template arguments

Whether a `<` opens template arguments is decided on the symbols behind it, before they are read as strings, comments and operators.
Told on the operators, the question has an answer of its own: the `<` is matched by a `>` in front of all that ends an expression.
The look-ahead finds this answer unless it takes a symbol for an operator that is none, or a bracket for one of another shape.
-/

namespace CodeGroom

/-- The operators that a token is read as. -/
def Token.operators (t : Token) : List Text :=
  if (t.cls.within .operator || t.cls.within .punctuation) && !t.text.isBlank then Annotator.cutOperators t.text else []

namespace Annotator

/-- The operators that end an expression. -/
def enders : List Text := [";", "\x7b", "\x7d", "?", "&&", "||"].map Text.ofString

/-- The bracket that an operator opens, round or square. -/
def opens? (op : Text) : Option Bracket :=
  if op = [.char '('] then some .paren else if op = [.char '['] then some .square else none

/-- The bracket that an operator closes, round or square. -/
def closes? (op : Text) : Option Bracket :=
  if op = [.char ')'] then some .paren else if op = [.char ']'] then some .square else none

/-- The number of angle brackets that an operator may close. -/
def angleClosers (op : Text) : Nat :=
  if op = [.char '>'] then 1 else if op = [.char '>', .char '>'] then 2 else 0

/-- Whether a `<` is matched among the operators behind it, in front of all that ends an expression. Behind it, `angles` more are
open, and behind those the brackets `brackets`, the innermost first. Inside of brackets `<` and `>` need not match. -/
def matchesAngle : Nat → List Bracket → List Text → Bool
  | _, _, [] => false
  | angles, brackets, op :: ops =>
    if enders.contains op then false
    else if let some b := opens? op then matchesAngle angles (b :: brackets) ops
    else if let some b := closes? op then brackets.head? = some b && matchesAngle angles brackets.tail ops
    else if brackets ≠ [] then matchesAngle angles brackets ops
    else if op = [.char '<'] then matchesAngle (angles + 1) [] ops
    else angles < angleClosers op || matchesAngle (angles - angleClosers op) [] ops

/-- Whether no closing bracket among some operators meets an open bracket of the other shape, up to the one that closes a bracket in
front of them all. -/
def bracketsFit : List Bracket → List Text → Bool
  | _, [] => true
  | brackets, op :: ops =>
    if let some b := opens? op then bracketsFit (b :: brackets) ops
    else if let some b := closes? op then
      match brackets with
      | [] => true
      | b' :: brackets => b' = b && bracketsFit brackets ops
    else bracketsFit brackets ops

/-! ## The look-ahead, symbol by symbol -/

variable {n b : Nat} {t rest : Text} {x : Symbol}

/-- The symbol and the one behind it are not read as one. -/
def StandsAlone (x : Symbol) (rest : Text) : Prop := ∀ y, rest.head? = some y → [x, y] ∉ ["&&", "||", "->"].map Text.ofString

/-- A symbol that is none of `&`, `|` and `-` stands alone. -/
theorem standsAlone_of_ne (hx : x.isOneOf "&|-" = false) (rest : Text) : StandsAlone x rest := by
  intro y _ hmem
  simp only [Text.ofString, List.map_cons, List.map_nil, List.mem_cons, List.not_mem_nil, or_false] at hmem
  rcases hmem with hmem | hmem | hmem <;> obtain ⟨rfl, -⟩ := List.cons.inj hmem <;> cases hx

/-- How a text starts for the look-ahead. -/
theorem text_cases (t : Text) : t = [] ∨ (∃ y rest, t = y :: y :: rest ∧ (y = .char '&' ∨ y = .char '|')) ∨
    (∃ rest, t = .char '-' :: .char '>' :: rest) ∨ ∃ x rest, t = x :: rest ∧ StandsAlone x rest := by
  rcases t with - | ⟨x, - | ⟨y, rest⟩⟩
  · exact .inl rfl
  · exact .inr (.inr (.inr ⟨x, [], rfl, by simp [StandsAlone]⟩))
  · by_cases hpair : [x, y] ∈ ["&&", "||", "->"].map Text.ofString
    · simp only [Text.ofString, List.map_cons, List.map_nil, List.mem_cons, List.not_mem_nil, or_false] at hpair
      rcases hpair with hpair | hpair | hpair <;> cases hpair
      · exact .inr (.inl ⟨_, rest, rfl, .inl rfl⟩)
      · exact .inr (.inl ⟨_, rest, rfl, .inr rfl⟩)
      · exact .inr (.inr (.inl ⟨rest, rfl⟩))
    · refine .inr (.inr (.inr ⟨x, y :: rest, rfl, ?_⟩))
      rintro z hz
      obtain rfl := Option.some.inj hz
      exact hpair

/-- What the look-ahead does at a symbol that stands alone. -/
theorem angleCloses_cons (hx : StandsAlone x rest) (n b : Nat) : angleCloses n b (x :: rest) =
    if x.isOneOf ";\x7b\x7d?" then false
    else if x.isOneOf "([" then angleCloses n (b + 1) rest
    else if x.isOneOf ")]" then decide (0 < b) && angleCloses n (b - 1) rest
    else if x = .char '<' ∧ b = 0 then angleCloses (n + 1) b rest
    else if x = .char '>' ∧ b = 0 then decide (n = 0) || angleCloses (n - 1) b rest
    else angleCloses n b rest := by
  have hpair : ∀ {u v : Char} {ys : Text}, x = .char u → rest = .char v :: ys →
      [.char u, .char v] ∉ ["&&", "||", "->"].map Text.ofString := by
    rintro u v ys rfl rfl
    exact hx _ rfl
  cases n <;> cases b <;>
  · rw [angleCloses]
    · rfl
    · exact fun _ h h' => hpair h h' (by decide)
    · exact fun _ h h' => hpair h h' (by decide)
    · exact fun _ h h' => hpair h h' (by decide)

@[simp] theorem angleCloses_nil (n b : Nat) : angleCloses n b [] = false := by rw [angleCloses]

theorem angleCloses_ender (n b : Nat) (rest : Text) {y : Symbol} (hy : y = .char '&' ∨ y = .char '|') :
    angleCloses n b (y :: y :: rest) = false := by
  rcases hy with rfl | rfl <;> rw [angleCloses]

theorem angleCloses_arrow (n b : Nat) (rest : Text) : angleCloses n b (.char '-' :: .char '>' :: rest) = angleCloses n b rest := by
  rw [angleCloses]

/-- With fewer angle brackets open the look-ahead finds the end as well. -/
theorem angleCloses_of_succ (h : angleCloses (n + 1) b t = true) : angleCloses n b t = true := by
  induction hlength : t.length using Nat.strong_induction_on generalizing t n b with
  | h length ih =>
    subst hlength
    rcases text_cases t with rfl | ⟨y, rest, rfl, hy⟩ | ⟨rest, rfl⟩ | ⟨x, rest, rfl, hx⟩
    · rw [angleCloses_nil] at h
      cases h
    · rw [angleCloses_ender _ _ _ hy] at h
      cases h
    · rw [angleCloses_arrow] at h ⊢
      exact ih rest.length (by simp only [List.length_cons]; omega) h rfl
    · have hrest : ∀ {n b : Nat}, angleCloses (n + 1) b rest = true → angleCloses n b rest = true :=
        fun h => ih rest.length (by simp) h rfl
      rw [angleCloses_cons hx] at h ⊢
      split_ifs at h ⊢
      · exact hrest h
      · rw [Bool.and_eq_true] at h ⊢
        exact ⟨h.1, hrest h.2⟩
      · exact hrest h
      · cases n with
        | zero => rfl
        | succ n => exact hrest (by simpa using h)
      · exact hrest h

/-- The look-ahead passes over a symbol that is no bracket and no `>`; without a `<` there are not more to close. -/
theorem angleCloses_of_cons (hx : x.isOneOf "()[]>" = false) (h : angleCloses n b (x :: rest) = true) :
    angleCloses n b rest = true := by
  have hone : ∀ {y : Symbol} {s : String}, y.isOneOf s = true → s.toList ⊆ "()[]>".toList → y.isOneOf "()[]>" = true := by
    intro y s hy hs
    cases y with
    | char c => exact List.contains_iff_mem.2 (hs (List.contains_iff_mem.1 hy))
    | byte _ => cases hy
  rcases text_cases (x :: rest) with hnil | ⟨y, rest', heq, hy⟩ | ⟨rest', heq⟩ | ⟨x', rest', heq, halone⟩
  · cases hnil
  · rw [heq, angleCloses_ender _ _ _ hy] at h
    cases h
  · obtain ⟨rfl, rfl⟩ := List.cons.inj heq
    -- The arrow is read as one, so its `>` does not count.
    rw [angleCloses_arrow] at h
    rw [angleCloses_cons (standsAlone_of_ne rfl _)]
    cases b with
    | succ b => simpa [Symbol.isOneOf] using h
    | zero =>
      cases n with
      | zero => rfl
      | succ n => simpa [Symbol.isOneOf] using angleCloses_of_succ h
  · obtain ⟨rfl, rfl⟩ := List.cons.inj heq
    rw [angleCloses_cons halone] at h
    split_ifs at h with h1 h2 h3 h4 h5
    · rw [hone h2 (by decide)] at hx
      cases hx
    · rw [hone h3 (by decide)] at hx
      cases hx
    · exact angleCloses_of_succ h
    · rw [h5.1] at hx
      cases hx
    · exact h

/-! ## The look-ahead, operator by operator -/

/-- No symbol of the text is one of some characters. -/
def Avoids (s : String) (t : Text) : Prop := ∀ x ∈ t, x.isOneOf s = false

instance (s : String) (t : Text) : Decidable (Avoids s t) := inferInstanceAs (Decidable (∀ x ∈ t, x.isOneOf s = false))

/-- Inside of brackets the look-ahead passes over every symbol that is no round or square bracket. -/
theorem angleCloses_of_cons_inside (hx : x.isOneOf "()[]" = false) (h : angleCloses n (b + 1) (x :: rest) = true) :
    angleCloses n (b + 1) rest = true := by
  by_cases hangle : x = .char '>'
  · subst hangle
    rw [angleCloses_cons (standsAlone_of_ne rfl _)] at h
    simpa [Symbol.isOneOf] using h
  · refine angleCloses_of_cons ?_ h
    cases x with
    | char c => simp_all [Symbol.isOneOf]
    | byte _ => rfl

theorem angleCloses_of_append_inside {u : Text} (hu : Avoids "()[]" u) (h : angleCloses n (b + 1) (u ++ rest) = true) :
    angleCloses n (b + 1) rest = true := by
  induction u with
  | nil => exact h
  | cons x u ih => exact ih (fun y hy => hu y (List.mem_cons_of_mem _ hy)) (angleCloses_of_cons_inside (hu x List.mem_cons_self) h)

theorem angleCloses_of_append {u : Text} (hu : Avoids "()[]>" u) (h : angleCloses n b (u ++ rest) = true) :
    angleCloses n b rest = true := by
  induction u with
  | nil => exact h
  | cons x u ih => exact ih (fun y hy => hu y (List.mem_cons_of_mem _ hy)) (angleCloses_of_cons (hu x List.mem_cons_self) h)

/-- An operator is one of three or two symbols, or a single symbol. -/
theorem mem_cutOperators {op : Text} (h : op ∈ cutOperators t) : op ∈ tripleOperators ∨ op ∈ doubleOperators ∨ ∃ x, op = [x] := by
  fun_induction cutOperators t with
  | case1 x y z rest hmem ih =>
    rcases List.mem_cons.1 h with rfl | h
    · exact .inl (List.contains_iff_mem.1 hmem)
    · exact ih h
  | case2 x y z rest _ hmem ih =>
    rcases List.mem_cons.1 h with rfl | h
    · exact .inr (.inl (List.contains_iff_mem.1 hmem))
    · exact ih h
  | case3 x y z rest _ _ ih =>
    rcases List.mem_cons.1 h with rfl | h
    · exact .inr (.inr ⟨x, rfl⟩)
    · exact ih h
  | case4 x y hmem => exact .inr (.inl (List.mem_singleton.1 h ▸ List.contains_iff_mem.1 hmem))
  | case5 x y _ =>
    rcases List.mem_pair.1 h with rfl | rfl
    · exact .inr (.inr ⟨x, rfl⟩)
    · exact .inr (.inr ⟨y, rfl⟩)
  | case6 x => exact .inr (.inr ⟨x, List.mem_singleton.1 h⟩)
  | case7 => cases h

/-- An operator that opens and closes no bracket holds none. -/
theorem avoids_brackets {op : Text} (h : op ∈ cutOperators t) (hopens : opens? op = none) (hcloses : closes? op = none) :
    Avoids "()[]" op := by
  rcases mem_cutOperators h with h | h | ⟨x, rfl⟩
  · exact (by decide : ∀ op ∈ tripleOperators, Avoids "()[]" op) op h
  · exact (by decide : ∀ op ∈ doubleOperators, Avoids "()[]" op) op h
  · intro y hy
    obtain rfl := List.mem_singleton.1 hy
    cases y with
    | char c => grind [Symbol.isOneOf, opens?, closes?]
    | byte _ => rfl

/-- The operators that hold a `>`. -/
theorem angle_cases {op : Text} (h : op ∈ cutOperators t) (hopens : opens? op = none) (hcloses : closes? op = none)
    (hle : op ∉ [">=", ">>="].map Text.ofString) :
    op ∈ [">", ">>", "->", "->*"].map Text.ofString ∨ Avoids "()[]>" op := by
  rcases mem_cutOperators h with h | h | ⟨x, rfl⟩
  · exact (by decide : ∀ op ∈ tripleOperators, op ∉ [">=", ">>="].map Text.ofString →
      op ∈ [">", ">>", "->", "->*"].map Text.ofString ∨ Avoids "()[]>" op) op h hle
  · exact (by decide : ∀ op ∈ doubleOperators, op ∉ [">=", ">>="].map Text.ofString →
      op ∈ [">", ">>", "->", "->*"].map Text.ofString ∨ Avoids "()[]>" op) op h hle
  · have hbrackets := avoids_brackets h hopens hcloses x List.mem_cons_self
    by_cases hx : x = .char '>'
    · exact .inl (by simp [hx, Text.ofString])
    · refine .inr fun y hy => ?_
      obtain rfl := List.mem_singleton.1 hy
      cases y with
      | char c => simp_all [Symbol.isOneOf]
      | byte _ => rfl

variable {op : Text} {ops more : List Text} {brackets : List Bracket}

theorem angleCloses_opens {b' : Bracket} (h : opens? op = some b') (n b : Nat) (rest : Text) :
    angleCloses n b (op ++ rest) = angleCloses n (b + 1) rest := by
  unfold opens? at h
  split_ifs at h with hround hsquare
  · rw [hround, List.singleton_append, angleCloses_cons (standsAlone_of_ne rfl _)]
    rfl
  · rw [hsquare, List.singleton_append, angleCloses_cons (standsAlone_of_ne rfl _)]
    rfl

theorem angleCloses_closes {b' : Bracket} (h : closes? op = some b') (n b : Nat) (rest : Text) :
    angleCloses n b (op ++ rest) = (decide (0 < b) && angleCloses n (b - 1) rest) := by
  unfold closes? at h
  split_ifs at h with hround hsquare
  · rw [hround, List.singleton_append, angleCloses_cons (standsAlone_of_ne rfl _)]
    rfl
  · rw [hsquare, List.singleton_append, angleCloses_cons (standsAlone_of_ne rfl _)]
    rfl

/-- The look-ahead stops at all that ends an expression. -/
theorem angleCloses_enders (h : op ∈ enders) (n b : Nat) (rest : Text) : angleCloses n b (op ++ rest) = false := by
  simp only [enders, Text.ofString, List.map_cons, List.map_nil, List.mem_cons, List.not_mem_nil, or_false] at h
  rcases h with rfl | rfl | rfl | rfl | rfl | rfl
  · exact angleCloses_cons (standsAlone_of_ne rfl _) n b
  · exact angleCloses_cons (standsAlone_of_ne rfl _) n b
  · exact angleCloses_cons (standsAlone_of_ne rfl _) n b
  · exact angleCloses_cons (standsAlone_of_ne rfl _) n b
  · exact angleCloses_ender n b rest (.inl rfl)
  · exact angleCloses_ender n b rest (.inr rfl)

/-- Outside of brackets the look-ahead counts the `>` of operators. -/
theorem angleCloses_of_operator (hop : op ∈ [">", ">>", "->", "->*"].map Text.ofString ∨ Avoids "()[]>" op)
    (h : angleCloses n 0 (op ++ rest) = true) : n < angleClosers op ∨ angleCloses (n - angleClosers op) 0 rest = true := by
  have hclose : ∀ {n : Nat} {rest : Text}, angleCloses n 0 (.char '>' :: rest) = true →
      n = 0 ∨ angleCloses (n - 1) 0 rest = true := by
    intro n rest h
    rw [angleCloses_cons (standsAlone_of_ne rfl _)] at h
    simpa [Symbol.isOneOf] using h
  rcases hop with hop | hop
  · simp only [Text.ofString, List.map_cons, List.map_nil, List.mem_cons, List.not_mem_nil, or_false] at hop
    rcases hop with rfl | rfl | rfl | rfl
    · exact (hclose h).imp_left fun hn => by simp [hn, angleClosers]
    · rcases hclose h with rfl | h
      · exact .inl Nat.two_pos
      · exact (hclose h).imp (fun hn => Nat.lt_succ_of_le (Nat.le_of_sub_eq_zero hn)) fun h => by rwa [Nat.sub_sub] at h
    · exact .inr h
    · refine .inr (angleCloses_of_cons (x := .char '*') rfl ?_)
      rwa [← angleCloses_arrow]
  · have hnone : angleClosers op = 0 := by
      unfold angleClosers
      split_ifs with hone htwo
      · exact absurd (hop (.char '>') (by simp [hone])) (by decide)
      · exact absurd (hop (.char '>') (by simp [htwo])) (by decide)
      · rfl
    rw [hnone]
    exact .inr (angleCloses_of_append hop h)

/-- What the look-ahead finds behind an operator is found among the operators. -/
theorem matchesAngle_cons (hop : op ∈ cutOperators t) (hle : op ∉ [">=", ">>="].map Text.ofString)
    (hfit : bracketsFit brackets (op :: ops) = true) (hlook : angleCloses n brackets.length (op ++ rest) = true)
    (hrest : ∀ n brackets, bracketsFit brackets ops = true → angleCloses n brackets.length rest = true →
      matchesAngle n brackets ops = true) : matchesAngle n brackets (op :: ops) = true := by
  have henders : op ∉ enders := by
    intro hmem
    rw [angleCloses_enders hmem] at hlook
    cases hlook
  rw [matchesAngle, if_neg (by rwa [List.contains_iff_mem])]
  unfold bracketsFit at hfit
  cases hopens : opens? op with
  | some b =>
    rw [hopens] at hfit
    rw [angleCloses_opens hopens] at hlook
    exact hrest n (b :: brackets) hfit hlook
  | none =>
    rw [hopens] at hfit
    cases hcloses : closes? op with
    | some b =>
      rw [hcloses] at hfit
      rw [angleCloses_closes hcloses, Bool.and_eq_true] at hlook
      cases brackets with
      | nil => cases hlook.1
      | cons b' brackets =>
        rw [Bool.and_eq_true, decide_eq_true_eq] at hfit
        simpa [hfit.1] using hrest n brackets hfit.2 hlook.2
    | none =>
      rw [hcloses] at hfit
      have hbrackets := avoids_brackets hop hopens hcloses
      cases brackets with
      | cons b brackets =>
        simpa using hrest n (b :: brackets) hfit (angleCloses_of_append_inside hbrackets hlook)
      | nil =>
        by_cases hangle : op = [.char '<']
        · rw [hangle, List.singleton_append, List.length_nil, angleCloses_cons (standsAlone_of_ne rfl _)] at hlook
          simpa [hangle] using hrest (n + 1) [] hfit hlook
        · rcases angleCloses_of_operator (angle_cases hop hopens hcloses hle) hlook with hlt | hlook
          · simp [hangle, hlt]
          · simp [hangle, hrest _ _ hfit hlook]

/-- What the look-ahead finds in a stretch of operators is found among the operators. -/
theorem matchesAngle_append (hops : ∀ op ∈ ops, (∃ t, op ∈ cutOperators t) ∧ op ∉ [">=", ">>="].map Text.ofString)
    (hfit : bracketsFit brackets (ops ++ more) = true) (hlook : angleCloses n brackets.length (ops.flatten ++ rest) = true)
    (hrest : ∀ n brackets, bracketsFit brackets more = true → angleCloses n brackets.length rest = true →
      matchesAngle n brackets more = true) : matchesAngle n brackets (ops ++ more) = true := by
  induction ops generalizing n brackets with
  | nil => exact hrest n brackets hfit hlook
  | cons op ops ih =>
    obtain ⟨⟨t, hop⟩, hle⟩ := hops op List.mem_cons_self
    rw [List.flatten_cons, List.append_assoc] at hlook
    exact matchesAngle_cons hop hle hfit hlook fun n brackets hfit hlook =>
      ih (fun op hop => hops op (List.mem_cons_of_mem _ hop)) hfit hlook

end Annotator

/-- A token that is read as operators is read as all that it can be cut into. -/
theorem Token.operators_eq {t : Token} (h : t.operators ≠ []) : t.operators = Annotator.cutOperators t.text := by
  unfold Token.operators at h ⊢
  split_ifs at h ⊢ with hcls
  · rfl
  · exact absurd rfl h

namespace Annotator

/-- The operators `ops` behind a `<` in its token and the tokens behind that one are what the look-ahead takes them for: no other
token holds a bracket or a `>`, no operator but `>`, `>>` and the arrows holds a `>`, brackets close brackets of their own shape, and
the look-ahead finds the end of the template arguments there. -/
structure PlainStretch (ops : List Text) (ts : List Token) : Prop where
  ends : angleCloses 0 0 (ops.flatten ++ ts.flatMap (·.text)) = true
  apart : ∀ t ∈ ts, t.operators = [] → Avoids "()[]>" t.text
  single : ∀ op ∈ ops ++ ts.flatMap Token.operators, op ∉ [">=", ">>="].map Text.ofString
  fit : bracketsFit [] (ops ++ ts.flatMap Token.operators) = true

variable {ops : List Text} {ts : List Token}

theorem matchesAngle_tokens {n : Nat} {brackets : List Bracket} (hapart : ∀ t ∈ ts, t.operators = [] → Avoids "()[]>" t.text)
    (hsingle : ∀ op ∈ ts.flatMap Token.operators, op ∉ [">=", ">>="].map Text.ofString)
    (hfit : bracketsFit brackets (ts.flatMap Token.operators) = true)
    (hlook : angleCloses n brackets.length (ts.flatMap (·.text)) = true) :
    matchesAngle n brackets (ts.flatMap Token.operators) = true := by
  induction ts generalizing n brackets with
  | nil =>
    rw [List.flatMap_nil, angleCloses_nil] at hlook
    cases hlook
  | cons t ts ih =>
    rw [List.flatMap_cons] at hsingle hfit hlook ⊢
    rw [List.forall_mem_append] at hsingle
    have hmore : ∀ n brackets, bracketsFit brackets (ts.flatMap Token.operators) = true →
        angleCloses n brackets.length (ts.flatMap (·.text)) = true → matchesAngle n brackets (ts.flatMap Token.operators) = true :=
      fun n brackets => ih (fun u hu => hapart u (List.mem_cons_of_mem _ hu)) hsingle.2
    by_cases hnone : t.operators = []
    · rw [hnone, List.nil_append] at hfit ⊢
      exact hmore n brackets hfit (angleCloses_of_append (hapart t List.mem_cons_self hnone) hlook)
    · have heq := Token.operators_eq hnone
      refine matchesAngle_append (fun op hop => ⟨⟨t.text, heq ▸ hop⟩, hsingle.1 op hop⟩) hfit ?_ hmore
      rwa [heq, flatten_cutOperators]

/-- In a plain stretch the look-ahead is right: the `<` is matched among the operators behind it. -/
theorem PlainStretch.matchesAngle (h : PlainStretch ops ts) (hops : ∀ op ∈ ops, ∃ t, op ∈ cutOperators t) :
    matchesAngle 0 [] (ops ++ ts.flatMap Token.operators) = true := by
  have hsingle := List.forall_mem_append.1 h.single
  exact matchesAngle_append (fun op hop => ⟨hops op hop, hsingle.1 op hop⟩) h.fit h.ends fun n brackets hfit hlook =>
    matchesAngle_tokens h.apart hsingle.2 hfit hlook

end Annotator

end CodeGroom
