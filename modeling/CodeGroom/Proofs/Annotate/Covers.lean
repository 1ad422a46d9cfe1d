import CodeGroom.Proofs.Annotate.Calm

/-!
# The open brackets behind a `<`

Behind a `<` that opens an angle bracket, each `<` opens another one, or may do so inside of brackets; a `>` closes the innermost
one; round and square brackets take what was left open inside of them with them; and nothing else touches the open brackets. So where
the `<` has its match among the operators behind it, its bracket is closed by that match, and by nothing else before.
-/

namespace CodeGroom

namespace Annotator

variable {src : Source} {a b c : Annotator} {n d : Nat} {op : Text} {ops : List Text} {brackets : List Bracket} {u : Opener}
  {inner outer : List Opener}

/-! ## What single operators do -/

/-- A closing bracket takes the innermost bracket that it fits off, and what was left open inside. -/
theorem closeBracket_of_split (src : Source) {fits : Bracket → Bool} {o : Opener} (h : a.opened = inner ++ o :: outer)
    (hinner : ∀ v ∈ inner, fits v.bracket = false) (ho : fits o.bracket = true) (alone : Bracket) (start : Nat) (text : Text) :
    (a.closeBracket src fits alone start text).opened = outer ∧
      ∃ x, (a.closeBracket src fits alone start text).lexemes = x :: a.lexemes ∧ x.kind = .closing o.bracket ∧
        x.depth = outer.length := by
  have hdrop : a.opened.dropWhile (!fits ·.bracket) = o :: outer :=
    dropWhile_eq_cons_iff.2 ⟨inner, h, fun v hv => by simp [hinner v hv], by simp [ho]⟩
  unfold closeBracket
  rw [hdrop]
  dsimp only
  split_ifs
  · exact ⟨rfl, _, rfl, rfl, rfl⟩
  · exact ⟨rfl, _, rfl, rfl, rfl⟩

/-- Nothing is left by a bracket that is closed inside. -/
theorem leavers_of_closing {x : Lexeme} {k : Bracket} (hlex : b.lexemes = x :: a.lexemes) (hk : x.kind = .closing k)
    (hbrace : k ≠ .brace) (hd : (d : Int) < x.depth) : b.leavers d = a.leavers d := by
  rw [leavers, hlex]
  refine List.countP_cons_of_neg ?_
  simp [Lexeme.leaves, Lexeme.endsExpression, hk, hbrace, Int.not_le.2 hd]

theorem leavers_openBracket {bracket : Bracket} (hbrace : bracket ≠ .brace) (hd : d < a.depth) (start : Nat) (text : Text)
    (owner : Kind) : (a.openBracket src bracket start text owner).leavers d = a.leavers d :=
  leavers_add hd (endsExpression_of_kind (by simpa using hbrace) text) start owner false

/-- The bracket is a round or a square one, whichever `k` is. -/
theorem ne_of_alike {k k' : Bracket} (hk : k = .paren ∨ k = .square) (h : k.alike k' = true) : k' ≠ .brace ∧ k' ≠ .angle := by
  rcases hk with rfl | rfl <;> cases k' <;> simp_all [Bracket.alike, Bracket.isRound]

theorem eq_of_opens {k : Bracket} (h : opens? op = some k) :
    op = [.char '('] ∧ k = .paren ∨ op = [.char '['] ∧ k = .square := by
  unfold opens? at h
  split_ifs at h with hround hsquare
  · exact .inl ⟨hround, (Option.some.inj h).symm⟩
  · exact .inr ⟨hsquare, (Option.some.inj h).symm⟩

theorem eq_of_closes {k : Bracket} (h : closes? op = some k) :
    op = [.char ')'] ∧ k = .paren ∨ op = [.char ']'] ∧ k = .square := by
  unfold closes? at h
  split_ifs at h with hround hsquare
  · exact .inl ⟨hround, (Option.some.inj h).symm⟩
  · exact .inr ⟨hsquare, (Option.some.inj h).symm⟩

/-- An opening bracket is open behind it. -/
theorem exists_opened {k : Bracket} (h : opens? op = some k) (hd : d < a.depth) (start : Nat) : ∃ v : Opener,
    k.alike v.bracket = true ∧ (a.operator src start op).opened = v :: a.opened ∧
      (a.operator src start op).leavers d = a.leavers d := by
  rcases eq_of_opens h with ⟨rfl, rfl⟩ | ⟨rfl, rfl⟩
  · have hopen : ∀ {b : Annotator} {bracket : Bracket} (owner : Kind), bracket.isRound = true → Calm d a b → ∃ v : Opener,
        Bracket.alike .paren v.bracket = true ∧ (b.openBracket src bracket start [.char '('] owner).opened = v :: a.opened ∧
          (b.openBracket src bracket start [.char '('] owner).leavers d = a.leavers d := by
      intro b bracket owner hround hcalm
      refine ⟨⟨b.lexemes.length, bracket, owner⟩, by rwa [Bracket.alike_of_round rfl], congrArg _ hcalm.opened, ?_⟩
      rw [leavers_openBracket (by rintro rfl; cases hround) (hcalm.lt_depth hd), hcalm.leavers]
    have hname : Calm d a (if a.lastCode.kind = .word then
        a.retype (if a.codeBeforeLast = .type ∨ a.codeBeforeLast = .word then .defName else .callName) else a) := by
      split_ifs with hword
      · exact calm_retype hword (by decide)
      · exact calm_retype hword (by decide)
      · exact .refl d a
    rw [operator, openRound]
    generalize (if a.lastCode.kind = .word then
      a.retype (if a.codeBeforeLast = .type ∨ a.codeBeforeLast = .word then .defName else .callName) else a) = b at hname ⊢
    split_ifs
    · exact hopen _ rfl hname
    · exact hopen _ rfl hname
    · exact hopen _ rfl hname
  · exact ⟨⟨a.lexemes.length, .square, .nothing⟩, rfl, rfl, leavers_openBracket (by decide) hd _ _ _⟩

/-- A closing round or square bracket fits the brackets that are written alike. -/
theorem operator_closes {k : Bracket} (h : closes? op = some k) (start : Nat) (a : Annotator) :
    a.operator src start op = a.closeBracket src k.alike k start op := by
  rcases eq_of_closes h with ⟨rfl, rfl⟩ | ⟨rfl, rfl⟩
  · have hfits : Bracket.isRound = Bracket.alike .paren := funext fun b => (Bracket.alike_of_round rfl b).symm
    rw [operator, hfits]
  · have hfits : (fun b => decide (b = .square)) = Bracket.alike .square :=
      funext fun b => (Bracket.alike_of_not_round rfl b).symm
    rw [operator, hfits]

/-- A `<` opens an angle bracket or none. -/
theorem operator_less (start : Nat) (a : Annotator) : a.operator src start [.char '<'] =
    if a.startsAngle src start then a.openBracket src .angle start [.char '<'] .nothing
    else a.addPlain src .compare start [.char '<'] := rfl

/-- A `>` closes the angle bracket that is innermost. -/
theorem closeAngle_of_angle {v : Opener} (h : a.opened = v :: outer) (hv : v.bracket = .angle) (start : Nat) :
    a.closeAngle src start = a.closeBracket src (· = .angle) .angle start [.char '>'] := by
  rw [closeAngle, if_pos (by rw [innermost?, h, List.head?_cons, Option.map_some, hv])]

theorem closes_angle (src : Source) {v : Opener} (h : a.opened = v :: outer) (hv : v.bracket = .angle) (start : Nat) :
    (a.closeAngle src start).opened = outer ∧ ∃ x,
      (a.closeAngle src start).lexemes = x :: a.lexemes ∧ x.kind = .closing .angle ∧ x.depth = outer.length := by
  rw [closeAngle_of_angle h hv, ← hv]
  exact closeBracket_of_split src (show a.opened = [] ++ v :: outer from h) (by simp) (by simp [hv]) _ start _

/-- A `>` behind which other brackets are open closes the innermost of them or none. -/
theorem closeAngle_inside (h : a.opened = inner ++ outer) (hinner : inner ≠ []) (hd : d < outer.length) (start : Nat) :
    (∃ v inner', inner = v :: inner' ∧ v.bracket = .angle ∧ (a.closeAngle src start).opened = inner' ++ outer ∧
      (a.closeAngle src start).leavers d = a.leavers d) ∨ Calm d a (a.closeAngle src start) := by
  by_cases hangle : a.innermost? = some .angle
  · left
    cases inner with
    | nil => exact absurd rfl hinner
    | cons v inner =>
      have hv : v.bracket = .angle := by
        rw [innermost?, h] at hangle
        exact Option.some.inj hangle
      obtain ⟨hopened, x, hlex, hk, hdepth⟩ := closes_angle src h hv start
      refine ⟨v, inner, rfl, hv, hopened, leavers_of_closing hlex hk (by decide) ?_⟩
      rw [hdepth]
      exact_mod_cast hd.trans_le (List.suffix_append inner outer).length_le
  · right
    rw [closeAngle, if_neg hangle]
    refine calm_addPlain ?_ rfl start
    rw [depth, h]
    exact hd.trans_le (List.suffix_append inner outer).length_le

/-! ## The open brackets behind a `<` -/

/-- The brackets that are open behind a `<` when `brackets` are open among the operators there: those, with any angle brackets inside
of each, and `n` angle brackets around them all. -/
inductive Covers (n : Nat) : List Bracket → List Opener → Prop where
  | angles {inner : List Opener} : (∀ v ∈ inner, v.bracket = .angle) → inner.length = n → Covers n [] inner
  | bracket {k : Bracket} {brackets : List Bracket} {v : Opener} {angles inner : List Opener} :
      Covers n brackets inner → (k = .paren ∨ k = .square) → k.alike v.bracket = true → (∀ w ∈ angles, w.bracket = .angle) →
      Covers n (k :: brackets) (angles ++ v :: inner)

/-- Inside of brackets another angle bracket may open. -/
theorem Covers.cons {k : Bracket} {v : Opener} (h : Covers n (k :: brackets) inner) (hv : v.bracket = .angle) :
    Covers n (k :: brackets) (v :: inner) := by
  cases h with
  | @bracket _ _ w angles inner hinner hk halike hangles =>
    have hmore : ∀ w ∈ v :: angles, w.bracket = .angle := List.forall_mem_cons.2 ⟨hv, hangles⟩
    exact .bracket hinner hk halike hmore

/-- Inside of brackets an angle bracket may close. -/
theorem Covers.tail {k : Bracket} {v : Opener} (h : Covers n (k :: brackets) (v :: inner)) (hv : v.bracket = .angle) :
    Covers n (k :: brackets) inner := by
  generalize hlist : v :: inner = l at h
  cases h with
  | @bracket _ _ w angles rest hinner hk halike hangles =>
    cases angles with
    | nil =>
      obtain ⟨rfl, rfl⟩ := List.cons.inj hlist
      exact absurd hv (ne_of_alike hk halike).2
    | cons x angles =>
      obtain ⟨rfl, rfl⟩ := List.cons.inj hlist
      exact .bracket hinner hk halike fun y hy => hangles y (List.mem_cons_of_mem _ hy)

/-- Since the moment `c` behind a `<`, only code has been read, the brackets open behind it are covered, and nothing has left it. -/
structure Inside (src : Source) (u : Opener) (outer : List Opener) (c : Annotator) (n : Nat) (brackets : List Bracket)
    (a : Annotator) : Prop where
  steps : CodeSteps src c a
  opened : ∃ inner, a.opened = inner ++ u :: outer ∧ Covers n brackets inner
  leavers : a.leavers outer.length = c.leavers outer.length

/-- On the way from the moment `c` behind a `<` its bracket has been closed, and nothing has left it before. -/
def ClosedOnTheWay (src : Source) (u : Opener) (outer : List Opener) (c a : Annotator) : Prop :=
  ∃ b start, CodeSteps src c b ∧ b.opened = u :: outer ∧ b.leavers outer.length = c.leavers outer.length ∧
    CodeSteps src (b.closeAngle src start) a

theorem ClosedOnTheWay.trans (h : ClosedOnTheWay src u outer c a) (hsteps : CodeSteps src a b) :
    ClosedOnTheWay src u outer c b := by
  obtain ⟨b, start, hfrom, hopened, hleavers, hto⟩ := h
  exact ⟨b, start, hfrom, hopened, hleavers, hto.trans hsteps⟩

theorem Inside.lt_depth (h : Inside src u outer c n brackets a) : outer.length < a.depth := by
  obtain ⟨inner, hopened, -⟩ := h.opened
  rw [depth, hopened, List.length_append, List.length_cons]
  omega

theorem Inside.calm (h : Inside src u outer c n brackets a) (hsteps : CodeSteps src a b) (hcalm : Calm outer.length a b) :
    Inside src u outer c n brackets b where
  steps := h.steps.trans hsteps
  opened := by rw [hcalm.opened]; exact h.opened
  leavers := hcalm.leavers.trans h.leavers

/-- A `>` where only angle brackets are open behind the `<` closes one of them, or the bracket itself. -/
theorem Inside.closeAngle (h : Inside src u outer c n [] a) (start : Nat) :
    n = 0 ∧ a.opened = u :: outer ∨ 0 < n ∧ Inside src u outer c (n - 1) [] (a.closeAngle src start) := by
  obtain ⟨inner, hopened, hcovers⟩ := h.opened
  cases hcovers with
  | angles hangles hlength =>
    cases inner with
    | nil => exact .inl ⟨hlength.symm, hopened⟩
    | cons v inner =>
      obtain ⟨hv, hinner⟩ := List.forall_mem_cons.1 hangles
      obtain ⟨hopened', x, hlex, hk, hdepth⟩ := closes_angle src hopened hv start
      refine .inr ⟨hlength ▸ Nat.succ_pos _, h.steps.trans (steps_closeAngle start a), ⟨inner, hopened', .angles hinner ?_⟩, ?_⟩
      · rw [← hlength, List.length_cons, Nat.add_sub_cancel]
      · rw [leavers_of_closing hlex hk (by decide), h.leavers]
        rw [hdepth]
        exact_mod_cast Nat.lt_of_lt_of_le (Nat.lt_succ_self _) (List.suffix_append inner (u :: outer)).length_le

/-- A `>` inside of brackets closes an angle bracket inside of them or none. -/
theorem Inside.closeAngle_inside {k : Bracket} (h : Inside src u outer c n (k :: brackets) a) (start : Nat) :
    Inside src u outer c n (k :: brackets) (a.closeAngle src start) := by
  have hsteps : CodeSteps src a (a.closeAngle src start) := steps_closeAngle start a
  obtain ⟨inner, hopened, hcovers⟩ := h.opened
  have hinner : inner ≠ [] := by
    generalize hlist : k :: brackets = l at hcovers
    cases hcovers with
    | angles => cases hlist
    | bracket => simp
  rcases Annotator.closeAngle_inside hopened hinner (Nat.lt_succ_self outer.length) start with
    ⟨v, inner, rfl, hv, hopened', hleavers⟩ | hcalm
  · exact ⟨h.steps.trans hsteps, ⟨inner, hopened', hcovers.tail hv⟩, hleavers.trans h.leavers⟩
  · exact h.calm hsteps hcalm

/-- Where only angle brackets are open behind the `<`, the innermost open bracket is an angle bracket. -/
theorem Inside.innermost_eq (h : Inside src u outer c n [] a) (hu : u.bracket = .angle) : a.innermost? = some .angle := by
  obtain ⟨inner, hopened, hcovers⟩ := h.opened
  cases hcovers with
  | angles hangles _ =>
    rw [innermost?, hopened]
    cases inner with
    | nil => exact congrArg some hu
    | cons v inner => exact congrArg some (hangles v List.mem_cons_self)

/-- There a `<` opens one more. -/
theorem Inside.less (h : Inside src u outer c n [] a) (hu : u.bracket = .angle) (start : Nat) :
    Inside src u outer c (n + 1) [] (a.operator src start [.char '<']) := by
  have hstarts : a.startsAngle src start = true := by
    simp [startsAngle, h.innermost_eq hu]
  obtain ⟨inner, hopened, hcovers⟩ := h.opened
  refine ⟨h.steps.trans (steps_operator start (List.cons_ne_nil _ _) a), ?_, ?_⟩
  · rw [operator_less, if_pos hstarts]
    cases hcovers with
    | angles hangles hlength =>
      exact ⟨⟨a.lexemes.length, .angle, .nothing⟩ :: inner, congrArg _ hopened,
        .angles (List.forall_mem_cons.2 ⟨rfl, hangles⟩) (by rw [List.length_cons, hlength])⟩
  · rw [operator_less, if_pos hstarts, leavers_openBracket (by decide) h.lt_depth, h.leavers]

/-- Inside of brackets a `<` opens an angle bracket or none. -/
theorem Inside.less_inside {k : Bracket} (h : Inside src u outer c n (k :: brackets) a) (start : Nat) :
    Inside src u outer c n (k :: brackets) (a.operator src start [.char '<']) := by
  have hsteps : CodeSteps src a (a.operator src start [.char '<']) := steps_operator start (List.cons_ne_nil _ _) a
  rw [operator_less] at hsteps ⊢
  split_ifs at hsteps ⊢
  · obtain ⟨inner, hopened, hcovers⟩ := h.opened
    refine ⟨h.steps.trans hsteps, ⟨_ :: inner, congrArg _ hopened, hcovers.cons rfl⟩, ?_⟩
    rw [leavers_openBracket (by decide) h.lt_depth, h.leavers]
  · exact h.calm hsteps (calm_addPlain h.lt_depth rfl start)

/-- A `>>` is read as two `>` where an angle bracket is innermost. -/
theorem operator_shift (start : Nat) (a : Annotator) : a.operator src start [.char '>', .char '>'] =
    if a.innermost? = some .angle then (a.closeAngle src start).closeAngle src (start + 1)
    else a.addPlain src .arith start [.char '>', .char '>'] := rfl

/-- A `>` or `>>` closes as many angle brackets, the one in front of them all included. -/
theorem Inside.angleClosers (h : Inside src u outer c n [] a) (hu : u.bracket = .angle)
    (hop : op = [.char '>'] ∨ op = [.char '>', .char '>']) (start : Nat) :
    n < angleClosers op ∧ ClosedOnTheWay src u outer c (a.operator src start op) ∨
      angleClosers op ≤ n ∧ Inside src u outer c (n - angleClosers op) [] (a.operator src start op) := by
  rcases hop with rfl | rfl
  · exact (h.closeAngle start).imp (fun ⟨hn, hopened⟩ => ⟨hn ▸ Nat.one_pos, a, start, h.steps, hopened, h.leavers, .refl _⟩) id
  · rw [operator_shift, if_pos (h.innermost_eq hu)]
    have hsecond : CodeSteps src (a.closeAngle src start) ((a.closeAngle src start).closeAngle src (start + 1)) :=
      steps_closeAngle (start + 1) _
    rcases h.closeAngle start with ⟨hn, hopened⟩ | ⟨hn, hinside⟩
    · exact .inl ⟨hn ▸ Nat.two_pos, a, start, h.steps, hopened, h.leavers, hsecond⟩
    · rcases hinside.closeAngle (start + 1) with ⟨hn', hopened⟩ | ⟨hn', hinside'⟩
      · exact .inl ⟨Nat.lt_succ_of_le (Nat.le_of_sub_eq_zero hn'), _, start + 1, hinside.steps, hopened, hinside.leavers, .refl _⟩
      · refine .inr ⟨Nat.succ_le_of_lt (Nat.lt_of_sub_pos hn'), ?_⟩
        rwa [Nat.sub_sub] at hinside'

/-- Inside of brackets a `>>` closes angle brackets inside of them or none. -/
theorem Inside.shift_inside {k : Bracket} (h : Inside src u outer c n (k :: brackets) a) (start : Nat) :
    Inside src u outer c n (k :: brackets) (a.operator src start [.char '>', .char '>']) := by
  rw [operator_shift]
  split_ifs
  · exact (h.closeAngle_inside start).closeAngle_inside (start + 1)
  · exact h.calm (CodeStep.plain start _ rfl (.inl (List.cons_ne_nil _ _))).steps (calm_addPlain h.lt_depth rfl start)

/-- A round or square bracket opens. -/
theorem Inside.opens {k : Bracket} (h : Inside src u outer c n brackets a) (hop : opens? op = some k) (start : Nat) :
    Inside src u outer c n (k :: brackets) (a.operator src start op) := by
  have hkind : op ≠ [] ∧ (k = .paren ∨ k = .square) := by
    rcases eq_of_opens hop with ⟨rfl, rfl⟩ | ⟨rfl, rfl⟩
    · exact ⟨List.cons_ne_nil _ _, .inl rfl⟩
    · exact ⟨List.cons_ne_nil _ _, .inr rfl⟩
  obtain ⟨v, halike, hopened', hleavers⟩ := exists_opened hop h.lt_depth start
  obtain ⟨inner, hopened, hcovers⟩ := h.opened
  refine ⟨h.steps.trans (steps_operator start hkind.1 a), ⟨[] ++ v :: inner, ?_, .bracket hcovers hkind.2 halike (by simp)⟩,
    hleavers.trans h.leavers⟩
  rw [hopened', hopened]
  rfl

/-- The innermost round or square bracket closes, with the angle brackets inside of it. -/
theorem Inside.closes {k : Bracket} (h : Inside src u outer c n (k :: brackets) a) (hop : closes? op = some k) (start : Nat) :
    Inside src u outer c n brackets (a.operator src start op) := by
  have hne : op ≠ [] := by
    rcases eq_of_closes hop with ⟨rfl, -⟩ | ⟨rfl, -⟩ <;> exact List.cons_ne_nil _ _
  obtain ⟨inner, hopened, hcovers⟩ := h.opened
  cases hcovers with
  | @bracket _ _ v angles inner hinner hk halike hangles =>
    have hfits : ∀ w ∈ angles, k.alike w.bracket = false := by
      intro w hw
      rw [hangles w hw]
      rcases hk with rfl | rfl <;> rfl
    rw [List.append_assoc, List.cons_append] at hopened
    obtain ⟨hopened', x, hlex, hclosing, hdepth⟩ := closeBracket_of_split src hopened hfits halike k start op
    rw [← operator_closes hop] at hopened' hlex
    refine ⟨h.steps.trans (steps_operator start hne a), ⟨inner, hopened', hinner⟩, ?_⟩
    rw [leavers_of_closing hlex hclosing (ne_of_alike hk halike).1, h.leavers]
    rw [hdepth]
    exact_mod_cast Nat.lt_of_lt_of_le (Nat.lt_succ_self _) (List.suffix_append inner (u :: outer)).length_le

/-- An operator behind a `<` whose match is among this operator and those behind it: it is the match and closes the bracket, or the
match is among those behind it. -/
theorem Inside.operator (h : Inside src u outer c n brackets a) (hu : u.bracket = .angle) (hop : op ≠ []) (start : Nat)
    (hmatch : matchesAngle n brackets (op :: ops) = true) : ClosedOnTheWay src u outer c (a.operator src start op) ∨
      ∃ n brackets, Inside src u outer c n brackets (a.operator src start op) ∧ matchesAngle n brackets ops = true := by
  rw [matchesAngle] at hmatch
  by_cases henders : op ∈ enders
  · rw [if_pos (by rwa [List.contains_iff_mem])] at hmatch
    cases hmatch
  rw [if_neg (by rwa [List.contains_iff_mem])] at hmatch
  cases hopens : opens? op with
  | some k =>
    rw [hopens] at hmatch
    exact .inr ⟨n, k :: brackets, h.opens hopens start, hmatch⟩
  | none =>
    rw [hopens] at hmatch
    cases hcloses : closes? op with
    | some k =>
      rw [hcloses] at hmatch
      simp only [Bool.and_eq_true, decide_eq_true_eq] at hmatch
      obtain ⟨brackets, rfl⟩ := List.head?_eq_some_iff.1 hmatch.1
      exact .inr ⟨n, brackets, h.closes hcloses start, hmatch.2⟩
    | none =>
      rw [hcloses] at hmatch
      by_cases hangles : op ∈ ["<", ">", ">>"].map Text.ofString
      · have hcases : op = [.char '<'] ∨ op = [.char '>'] ∨ op = [.char '>', .char '>'] := by simpa [Text.ofString] using hangles
        cases brackets with
        | cons k brackets =>
          refine .inr ⟨n, k :: brackets, ?_, by simpa using hmatch⟩
          rcases hcases with rfl | rfl | rfl
          · exact h.less_inside start
          · exact h.closeAngle_inside start
          · exact h.shift_inside start
        | nil =>
          rcases hcases with rfl | hclosers
          · exact .inr ⟨n + 1, [], h.less hu start, hmatch⟩
          · have hless : op ≠ [.char '<'] := by rcases hclosers with rfl | rfl <;> decide
            rcases h.angleClosers hu hclosers start with ⟨-, hclosed⟩ | ⟨hle, hinside⟩
            · exact .inl hclosed
            · exact .inr ⟨_, [], hinside, by simpa [hless, Nat.not_lt.2 hle] using hmatch⟩
      · have hmoves : ¬Moves op := by
          rintro (hmem | hmem | hmem | hmem)
          · exact henders hmem
          · exact hmem hopens
          · exact hmem hcloses
          · exact hangles hmem
        refine .inr ⟨n, brackets, h.calm (steps_operator start hop a) (calm_operator h.lt_depth hmoves start), ?_⟩
        cases brackets with
        | cons k brackets => simpa using hmatch
        | nil =>
          have hothers : op ≠ [.char '<'] ∧ op ≠ [.char '>'] ∧ op ≠ [.char '>', .char '>'] := by simpa [Text.ofString] using hangles
          simpa [Annotator.angleClosers, hothers] using hmatch

/-! ## Runs of operators and tokens -/

theorem Inside.operators (h : Inside src u outer c n brackets a) (hu : u.bracket = .angle) {more : List Text}
    (hops : ∀ op ∈ ops, op ≠ []) (start : Nat) (hmatch : matchesAngle n brackets (ops ++ more) = true) :
    ClosedOnTheWay src u outer c (operators src start ops a) ∨
      ∃ n brackets, Inside src u outer c n brackets (operators src start ops a) ∧ matchesAngle n brackets more = true := by
  induction ops generalizing n brackets start a with
  | nil => exact .inr ⟨n, brackets, h, hmatch⟩
  | cons op ops ih =>
    obtain ⟨hop, hops⟩ := List.forall_mem_cons.1 hops
    rcases h.operator hu hop start hmatch with hclosed | ⟨n, brackets, hinside, hmatch⟩
    · exact .inl (hclosed.trans (steps_operators hops _ _))
    · exact ih hinside hops _ hmatch

/-- Steps of code leave the place up to which tokens have been read. -/
theorem CodeStep.resume_eq (h : CodeStep src a b) : b.resume = a.resume := by
  cases h with
  | closing start text _ _ =>
    unfold closeBracket
    split
    · rfl
    · dsimp only
      split_ifs <;> rfl
  | _ => rfl

theorem CodeSteps.resume_eq (h : CodeSteps src a b) : b.resume = a.resume :=
  h.invariant (fun _ _ hb hstep => hstep.resume_eq.trans hb) (Eq.refl a.resume)

/-- The tokens of code behind a `<`, where its match is among their operators. -/
theorem Inside.tokens {ts : List Token} (h : Inside src u outer c n brackets a) (hu : u.bracket = .angle)
    (htext : ∀ t ∈ ts, t.text ≠ []) (hdir : ∀ t ∈ ts, t.cls.within .directive = false) (hresume : ∀ t ∈ ts, a.resume ≤ t.start)
    (hmatch : matchesAngle n brackets (ts.flatMap Token.operators) = true) : ClosedOnTheWay src u outer c (a.tokens src ts) := by
  induction ts generalizing n brackets a with
  | nil => simp [matchesAngle] at hmatch
  | cons t ts ih =>
    obtain ⟨htextt, htext⟩ := List.forall_mem_cons.1 htext
    obtain ⟨hdirt, hdir⟩ := List.forall_mem_cons.1 hdir
    obtain ⟨hresumet, hresume⟩ := List.forall_mem_cons.1 hresume
    have hsteps : CodeSteps src a (token src a t) := steps_token htextt hdirt a
    have hrest : ∀ {n brackets}, Inside src u outer c n brackets (token src a t) →
        matchesAngle n brackets (ts.flatMap Token.operators) = true → ClosedOnTheWay src u outer c (a.tokens src (t :: ts)) :=
      fun hinside hmatch => ih hinside htext hdir (by rwa [hsteps.resume_eq]) hmatch
    rw [List.flatMap_cons] at hmatch
    by_cases hnone : t.operators = []
    · rw [hnone] at hmatch
      exact hrest (h.calm hsteps (calm_token h.lt_depth hnone hdirt)) hmatch
    · have hread : token src a t = Annotator.operators src t.start t.operators a := token_of_operators hnone hresumet
      have hops : ∀ op ∈ t.operators, op ≠ [] := fun op hop => ne_nil_of_mem_cutOperators (Token.operators_eq hnone ▸ hop)
      rcases h.operators hu hops t.start hmatch with hclosed | ⟨n, brackets, hinside, hmatch⟩
      · exact ClosedOnTheWay.trans (hread ▸ hclosed) (steps_tokens htext hdir _)
      · exact hrest (hread ▸ hinside) hmatch

end Annotator

end CodeGroom
