import CodeGroom.Proofs.Annotate.Closers
import CodeGroom.Proofs.Annotate.Moves

/-!
# What stands next to what

What a lexeme is taken for depends on the code in front of it, and a name is taken for a call when the parenthesis behind it is
read. Among the code lexemes of the strand that a source is read into, whatever comments, line breaks and directives stand between
them, each one therefore suits its neighbours: the parenthesis of a call stands behind the name of the call, that of a condition
behind the word that asks for one, and a statement starts behind the end of another one.
-/

namespace CodeGroom

/-- A code lexeme suits the one in front of it: a parenthesis stands behind what it belongs to, `if` is taken for the second half of
`else if` exactly behind an `else`, and the lexeme starts a statement if it is the first one or stands behind the end of one. -/
structure Lexeme.Follows (before : Option Lexeme) (x : Lexeme) : Prop where
  call : x.kind = .opening .call → ∃ y ∈ before, (y.kind = .callName ∨ y.kind = .defName) ∧ x.owner = y.kind
  condition : x.kind = .opening .condition →
    ∃ y ∈ before, y.kind ∈ [.ifWord, .elseIfWord, .switchWord, .whileWord, .forWord] ∧ x.owner = y.kind
  elseIf : x.kind = .elseIfWord → ∃ y ∈ before, y.kind = .elseWord
  ifAlone : x.kind = .ifWord → ∀ y ∈ before, y.kind ≠ .elseWord
  startsStatement : x.marks.startsStatement = true ↔
    ∀ y ∈ before, y.kind ∈ [.semicolon, .opening .brace, .closing .brace, .closing .condition, .elseWord, .doWord]

/-- A name that is called has the parenthesis of the call behind it. -/
def Lexeme.IsCalled (x : Lexeme) (after : Option Lexeme) : Prop :=
  x.kind = .callName → ∃ y ∈ after, y.kind = .opening .call ∧ y.owner = .callName

/-- The code lexemes of a strand in the order of the source. -/
def Strand.code (s : Strand) : List Lexeme := s.lexemes.filter (·.kind.isCode)

namespace Annotator

variable {src : Source} {a b : Annotator}

/-- What a code lexeme of some kind and owner needs to stand behind one of another kind, `nothing` being the kind of no lexeme. -/
structure Suits (before owner kind : Kind) : Prop where
  call : kind = .opening .call → (before = .callName ∨ before = .defName) ∧ owner = before
  condition : kind = .opening .condition → before.ownsCondition = true ∧ owner = before
  elseIf : kind = .elseIfWord → before = .elseWord
  ifAlone : kind = .ifWord → before ≠ .elseWord

/-- Most kinds stand behind anything. -/
theorem suits_of_notMem {kind : Kind} (h : kind ∉ [.opening .call, .opening .condition, .elseIfWord, .ifWord]) (before owner : Kind) :
    Suits before owner kind := by
  simp only [List.mem_cons, List.not_mem_nil, or_false, not_or] at h
  obtain ⟨hcall, hcondition, helseIf, hif⟩ := h
  exact ⟨fun hk => absurd hk hcall, fun hk => absurd hk hcondition, fun hk => absurd hk helseIf, fun hk => absurd hk hif⟩

/-- The last code is the first one of the code read so far. -/
theorem lastCode_eq (a : Annotator) : a.lastCode = a.code.head?.getD .absent := by
  rw [lastCode, code, List.head?_filter]

/-- The last code lexeme is there if it is of any kind that is read. -/
theorem exists_head_of_lastCode {kind : Kind} (hk : kind ≠ .nothing) (h : a.lastCode.kind = kind) :
    ∃ y ∈ a.code.head?, y.kind = kind := by
  rw [lastCode_eq] at h
  cases hhead : a.code.head? with
  | none =>
    rw [hhead] at h
    exact absurd h.symm hk
  | some y =>
    rw [hhead] at h
    exact ⟨y, rfl, h⟩

/-- Conditions have owners of five kinds. -/
theorem mem_of_ownsCondition {kind : Kind} (h : kind.ownsCondition = true) :
    kind ∈ [.ifWord, .elseIfWord, .switchWord, .whileWord, .forWord] ∧ kind ≠ .nothing := by
  unfold Kind.ownsCondition at h
  split at h
  · decide
  · decide
  · decide
  · decide
  · decide
  · cases h

/-- The kinds that a statement may start behind. -/
theorem mem_iff_endsStatement (kind : Kind) :
    kind ∈ [.semicolon, .opening .brace, .closing .brace, .closing .condition, .elseWord, .doWord] ↔ kind.endsStatement = true := by
  cases kind with
  | opening b => cases b <;> decide
  | closing b => cases b <;> decide
  | _ => decide

/-- A statement starts at the beginning and behind lexemes of these kinds. -/
theorem startsStatement_iff (a : Annotator) : a.startsStatement = true ↔
    ∀ y ∈ a.code.head?, y.kind ∈ [.semicolon, .opening .brace, .closing .brace, .closing .condition, .elseWord, .doWord] := by
  rw [startsStatement, code, List.head?_filter, Option.all_eq_true]
  exact forall₂_congr fun y _ => (mem_iff_endsStatement y.kind).symm

/-- A code lexeme that suits the last one is read behind it. -/
theorem exists_code_add {kind owner : Kind} (src : Source) (hcode : kind.isCode = true) (hsuits : Suits a.lastCode.kind owner kind)
    (start : Nat) (text : Text) : ∃ x : Lexeme, (a.add src kind start text owner false).code = x :: a.code ∧ x.kind = kind ∧
      x.owner = owner ∧ x.Follows a.code.head? := by
  refine ⟨_, List.filter_cons_of_pos hcode, rfl, rfl, ?_⟩
  constructor
  · intro hk
    obtain ⟨hname, howner⟩ := hsuits.call hk
    have hne : a.lastCode.kind ≠ .nothing := by rcases hname with hname | hname <;> rw [hname] <;> decide
    obtain ⟨y, hy, hykind⟩ := exists_head_of_lastCode hne rfl
    exact ⟨y, hy, hykind ▸ hname, hykind ▸ howner⟩
  · intro hk
    obtain ⟨howns, howner⟩ := hsuits.condition hk
    obtain ⟨hmem, hne⟩ := mem_of_ownsCondition howns
    obtain ⟨y, hy, hykind⟩ := exists_head_of_lastCode hne rfl
    exact ⟨y, hy, hykind ▸ hmem, hykind ▸ howner⟩
  · intro hk
    exact exists_head_of_lastCode (by decide) (hsuits.elseIf hk)
  · intro hk y hy helse
    refine hsuits.ifAlone hk ?_
    rw [lastCode_eq, Option.mem_def.1 hy]
    exact helse
  · rw [← startsStatement_iff]
    show (kind.isCode && a.startsStatement) = true ↔ _
    rw [hcode, Bool.true_and]

/-- Code lexemes, the newest first, each of which suits the one in front of it and is the parenthesis of a call behind a name that
is called. -/
def Ordered : List Lexeme → Prop
  | [] => True
  | x :: older => x.Follows older.head? ∧ (∀ y ∈ older.head?, y.IsCalled (some x)) ∧ Ordered older

/-- The code read so far is ordered, and no parenthesis of a call is missing behind it. -/
structure Placed (a : Annotator) : Prop where
  ordered : Ordered a.code
  complete : a.lastCode.kind ≠ .callName

/-- Nothing is misplaced before anything is read. -/
theorem placed_start : Placed {} := ⟨trivial, by decide⟩

theorem isCalled_of_ne {x : Lexeme} {after : Option Lexeme} (h : x.kind ≠ .callName) : x.IsCalled after := fun hk => absurd hk h

/-- The last code is not called yet. -/
theorem Placed.head_ne (h : Placed a) : ∀ y ∈ a.code.head?, y.kind ≠ .callName := by
  intro y hy hk
  refine h.complete ?_
  rw [lastCode_eq, Option.mem_def.1 hy]
  exact hk

/-- What is placed well depends on the code read so far. -/
theorem Placed.same (h : Placed a) (hcode : b.code = a.code) : Placed b := by
  refine ⟨hcode ▸ h.ordered, ?_⟩
  rw [lastCode_eq, hcode, ← lastCode_eq]
  exact h.complete

/-- A code lexeme is read. -/
theorem Placed.read {x : Lexeme} (h : Placed a) (hcode : b.code = x :: a.code) (hx : x.Follows a.code.head?)
    (hname : x.kind ≠ .callName) : Placed b := by
  refine ⟨?_, ?_⟩
  · rw [hcode]
    exact ⟨hx, fun y hy => isCalled_of_ne (h.head_ne y hy), h.ordered⟩
  · rw [lastCode_eq, hcode]
    exact hname

/-- The kind of a word does not matter for what it stands behind, nor does that of a type or a name with a parenthesis. -/
theorem follows_retyped {w : Lexeme} {kind : Kind} {before : Option Lexeme} (h : w.Follows before)
    (hkind : kind ∈ [.type, .callName, .defName]) : Lexeme.Follows before { w with kind } := by
  simp only [List.mem_cons, List.not_mem_nil, or_false] at hkind
  refine ⟨?_, ?_, ?_, ?_, h.startsStatement⟩ <;>
  · intro hk
    have hk : kind = _ := hk
    rw [hk] at hkind
    simp at hkind

/-- The last word turns out to be a type or a name with a parenthesis, and the next code lexeme is read. -/
theorem Placed.readBehind {x w : Lexeme} {kind : Kind} {rest : List Lexeme} (h : Placed a) (ha : a.code = w :: rest)
    (hword : w.kind = .word) (hkind : kind ∈ [.type, .callName, .defName]) (hcode : b.code = x :: { w with kind } :: rest)
    (hx : x.Follows (some { w with kind })) (hcalled : Lexeme.IsCalled { w with kind } (some x)) (hname : x.kind ≠ .callName) :
    Placed b := by
  have hordered := h.ordered
  rw [ha] at hordered
  obtain ⟨hw, hrest, hordered⟩ := hordered
  refine ⟨?_, ?_⟩
  · rw [hcode]
    refine ⟨hx, ?_, follows_retyped hw hkind, ?_, hordered⟩
    · intro y hy
      obtain rfl := Option.some.inj hy
      exact hcalled
    · -- A word is no parenthesis, so in front of it nothing is called.
      intro y hy
      refine isCalled_of_ne ?_
      intro hk
      obtain ⟨z, hz, hopening, -⟩ := hrest y hy hk
      obtain rfl := Option.some.inj hz
      rw [hword] at hopening
      cases hopening
  · rw [lastCode_eq, hcode]
    exact hname

/-! ## Moves keep the order -/

/-- A code lexeme that suits the last one is added. -/
theorem Placed.add {kind owner : Kind} (h : Placed a) (hcode : kind.isCode = true) (hsuits : Suits a.lastCode.kind owner kind)
    (hname : kind ≠ .callName) (start : Nat) (text : Text) : Placed (a.add src kind start text owner false) := by
  obtain ⟨x, hadd, rfl, -, hx⟩ := exists_code_add src hcode hsuits start text
  exact h.read hadd hx hname

/-- A line break, a comment or a piece of a directive is no code. -/
theorem Placed.pass {kind : Kind} (h : Placed a) (hcode : kind.isCode = false) (start : Nat) (text : Text) (owner : Kind)
    (directive : Bool) : Placed (a.add src kind start text owner directive) := by
  refine h.same (List.filter_cons_of_neg ?_)
  show ¬kind.isCode = true
  rw [hcode]
  exact Bool.false_ne_true

/-- A plain lexeme needs no neighbour of its own. -/
theorem Placed.addPlain {kind : Kind} (h : Placed a)
    (hkind : kind ∉ [.opening .call, .opening .condition, .elseIfWord, .ifWord, .callName]) (start : Nat) (text : Text) :
    Placed (a.addPlain src kind start text) := by
  have hsuits : Suits a.lastCode.kind .nothing kind := by
    refine suits_of_notMem ?_ _ _
    simp_all
  cases hcode : kind.isCode with
  | true => exact h.add hcode hsuits (by simp_all) start text
  | false => exact h.pass hcode start text .nothing false

/-- Line breaks are no code. -/
theorem Placed.newline (h : Placed a) (start : Nat) : Placed (a.newline src start) := by
  rcases newline_cases src start a with hread | ⟨x, xs, hlex, hx, hread⟩
  · rw [hread]
    exact h.pass rfl start _ .nothing false
  · -- A line break that gets longer is no code either.
    have hcode : x.kind.isCode = false := hx ▸ rfl
    rw [hread]
    refine h.same ?_
    rw [code, code, hlex, List.filter_cons_of_neg (by simp [hcode]), List.filter_cons_of_neg (by simp [hcode])]

/-- An `if` behind an `else` is read as the second half of `else if`, and any other one stands alone. -/
theorem wordKind_if (cls : TokenClass) (text : Text) (before : Kind) :
    (wordKind cls text before = .elseIfWord → before = .elseWord) ∧ (wordKind cls text before = .ifWord → before ≠ .elseWord) := by
  unfold wordKind
  by_cases htype : cls.within .keywordType = true
  · rw [if_pos htype]
    exact ⟨nofun, nofun⟩
  rw [if_neg htype]
  by_cases hkeyword : cls.within .keyword = true
  · rw [if_pos hkeyword]
    split
    · split_ifs with helse
      · exact ⟨fun _ => helse, nofun⟩
      · exact ⟨nofun, fun _ => helse⟩
    · rename_i hif
      have htable : ∀ p ∈ keywordKinds, p.2 ≠ .elseIfWord := by decide
      refine ⟨fun hk => ?_, fun hk => absurd hk hif⟩
      cases hl : keywordKinds.lookup text with
      | none =>
        rw [hl] at hk
        cases hk
      | some k =>
        rw [hl] at hk
        exact absurd hk (htable _ (mem_of_lookup hl))
  · rw [if_neg hkeyword]
    split_ifs <;> exact ⟨nofun, nofun⟩

/-- A word suits what it stands behind. -/
theorem suits_wordKind (cls : TokenClass) (text : Text) (before : Kind) : Suits before .nothing (wordKind cls text before) := by
  have hkinds : ∀ kind ∈ wordKinds, kind ≠ .opening .call ∧ kind ≠ .opening .condition := by decide
  obtain ⟨hcall, hcondition⟩ := hkinds _ (mem_wordKinds cls text before)
  obtain ⟨helse, halone⟩ := wordKind_if cls text before
  exact ⟨fun hk => absurd hk hcall, fun hk => absurd hk hcondition, helse, halone⟩

/-- A word is taken for what its neighbours make it. -/
theorem Placed.word (h : Placed a) (start : Nat) (cls : TokenClass) (text : Text) : Placed (a.word src start cls text) := by
  have hkinds : ∀ kind ∈ wordKinds, kind.isCode = true ∧ kind ≠ .callName := by decide
  obtain ⟨hcode, hname⟩ := hkinds _ (mem_wordKinds cls text a.lastCode.kind)
  exact h.add hcode (suits_wordKind cls text a.lastCode.kind) hname start text

/-- Another kind for the last code lexeme changes the code there only. -/
theorem filter_changeLastCode {f : Lexeme → Lexeme} (hf : ∀ x, (f x).kind.isCode = true) {xs rest : List Lexeme} {w : Lexeme}
    (h : xs.filter (·.kind.isCode) = w :: rest) : (changeLastCode f xs).filter (·.kind.isCode) = f w :: rest := by
  induction xs with
  | nil => cases h
  | cons x xs ih =>
    unfold changeLastCode
    cases hx : x.kind.isCode with
    | true =>
      rw [List.filter_cons_of_pos (by simpa using hx)] at h
      obtain ⟨rfl, rfl⟩ := List.cons.inj h
      rw [if_pos rfl, List.filter_cons_of_pos (by simpa using hf x)]
    | false =>
      rw [List.filter_cons_of_neg (by simp [hx])] at h
      rw [if_neg Bool.false_ne_true, List.filter_cons_of_neg (by simp [hx])]
      exact ih h

/-- A change of the last word is one of the last code. -/
theorem exists_code_retype {kind : Kind} (hkind : kind.isCode = true) (h : a.lastCode.kind = .word) :
    ∃ w rest, a.code = w :: rest ∧ w.kind = .word ∧ (a.retype kind).code = { w with kind } :: rest := by
  obtain ⟨w, hw, hword⟩ := exists_head_of_lastCode (by decide) h
  obtain ⟨rest, hrest⟩ := List.head?_eq_some_iff.1 hw
  exact ⟨w, rest, hrest, hword, filter_changeLastCode (fun _ => hkind) hrest⟩

/-- A code lexeme is read behind the last word, which turns out to be a type or a name with a parenthesis. -/
theorem Placed.retypeAdd {kind owner kind' : Kind} (h : Placed a) (hword : a.lastCode.kind = .word)
    (hkind' : kind' ∈ [.type, .callName, .defName]) (hcode : kind.isCode = true) (hsuits : Suits kind' owner kind)
    (hcalled : kind' = .callName → kind = .opening .call ∧ owner = .callName) (hname : kind ≠ .callName) (start : Nat)
    (text : Text) : Placed ((a.retype kind').add src kind start text owner false) := by
  have hcode' : kind'.isCode = true := by
    simp only [List.mem_cons, List.not_mem_nil, or_false] at hkind'
    rcases hkind' with rfl | rfl | rfl <;> rfl
  obtain ⟨w, rest, ha, hw, hretype⟩ := exists_code_retype hcode' hword
  have hlast : (a.retype kind').lastCode.kind = kind' := by
    rw [lastCode_eq, hretype]
    rfl
  obtain ⟨x, hadd, rfl, rfl, hx⟩ := exists_code_add src hcode (hlast.symm ▸ hsuits) start text
  rw [hretype] at hadd hx
  refine h.readBehind ha hw hkind' hadd hx ?_ hname
  intro hk
  exact ⟨x, rfl, hcalled hk⟩

/-- A word in front of a scope operator is a type. -/
theorem Placed.scope (h : Placed a) (start : Nat) (text : Text) :
    Placed ((if a.lastCode.kind = .word then a.retype .type else a).addPlain src .qualifier start text) := by
  split_ifs with hword
  · exact h.retypeAdd hword (by decide) rfl (suits_of_notMem (by decide) _ _) (by decide) (by decide) start text
  · exact h.addPlain (by decide) start text

/-- A round bracket is one of a call or of a condition by what is in front of it. -/
theorem Placed.openRound (h : Placed a) (start : Nat) (text : Text) : Placed (a.openRound src start text) := by
  by_cases hword : a.lastCode.kind = .word
  · -- The word becomes the name that the parenthesis belongs to.
    obtain ⟨kind, hkind⟩ : ∃ kind : Kind, kind = if a.codeBeforeLast = .type ∨ a.codeBeforeLast = .word then .defName else .callName :=
      ⟨_, rfl⟩
    have hname : kind = .callName ∨ kind = .defName := by
      rw [hkind]
      split_ifs <;> simp
    have hcode : kind.isCode = true := by rcases hname with rfl | rfl <;> rfl
    obtain ⟨w, rest, -, -, hretype⟩ := exists_code_retype hcode hword
    have hlast : (a.retype kind).lastCode.kind = kind := by
      rw [lastCode_eq, hretype]
      rfl
    have hopen : a.openRound src start text = (a.retype kind).openBracket src .call start text kind := by
      unfold Annotator.openRound
      rw [if_pos hword, ← hkind]
      dsimp only
      rw [hlast, if_pos hname]
    rw [hopen]
    have hadd : Placed ((a.retype kind).add src (.opening .call) start text kind false) := by
      refine h.retypeAdd hword ?_ rfl ⟨fun _ => ⟨hname, rfl⟩, by simp, by simp, by simp⟩ (fun hk => ⟨rfl, hk⟩) (by decide) start text
      rcases hname with rfl | rfl <;> decide
    exact hadd.same rfl
  · have hopen : ∀ {bracket : Bracket} {owner : Kind}, Suits a.lastCode.kind owner (.opening bracket) →
        Placed (a.openBracket src bracket start text owner) := by
      intro bracket owner hsuits
      have hadd : Placed (a.add src (.opening bracket) start text owner false) := h.add rfl hsuits (by simp) start text
      exact hadd.same rfl
    unfold Annotator.openRound
    rw [if_neg hword]
    dsimp only
    split_ifs with hname howns
    · exact hopen ⟨fun _ => ⟨hname, rfl⟩, by simp, by simp, by simp⟩
    · exact hopen ⟨by simp, fun _ => ⟨howns, rfl⟩, by simp, by simp⟩
    · exact hopen (suits_of_notMem (by decide) _ _)

/-- Other brackets need no neighbour of their own. -/
theorem Placed.openBracket {bracket : Bracket} (h : Placed a) (hround : bracket.isRound = false) (start : Nat) (text : Text) :
    Placed (a.openBracket src bracket start text .nothing) := by
  have hadd : Placed (a.addPlain src (.opening bracket) start text) := by
    refine h.addPlain ?_ start text
    cases bracket <;> first | decide | cases hround
  exact hadd.same rfl

/-- Closing brackets need none either. -/
theorem Placed.closeBracket (h : Placed a) (fits : Bracket → Bool) (alone : Bracket) (start : Nat) (text : Text) :
    Placed (a.closeBracket src fits alone start text) := by
  have hadd : ∀ {b : Annotator} (bracket : Bracket) (owner : Kind), Placed b →
      Placed (b.add src (.closing bracket) start text owner false) := by
    intro b bracket owner hb
    exact hb.add rfl (suits_of_notMem (by simp) _ _) (by simp) start text
  rcases closeBracket_cases src fits alone start text a with ⟨-, hread⟩ | ⟨inner, o, outer, c, -, -, -, hc, hread⟩
  · rw [hread]
    exact hadd alone .nothing (h.same rfl)
  · rw [hread]
    rcases hc with rfl | ⟨n, rfl⟩
    · exact hadd o.bracket o.owner (h.same rfl)
    · exact hadd o.bracket o.owner (h.same rfl)

/-- And neither do colons. -/
theorem Placed.colon (h : Placed a) (start : Nat) (text : Text) : Placed (a.colon src start text) := by
  rcases colon_cases src start text a with ⟨-, hread⟩ | ⟨rest, -, hread⟩
  · rw [hread]
    exact h.addPlain (by decide) start text
  · have hasked : Placed { a with questions := rest } := h.same rfl
    rw [hread]
    exact hasked.addPlain (by decide) start text

/-- A kind that is read without a look at the code in front of it suits any. -/
theorem notMem_of_isPlain {kind : Kind} (h : kind.isPlain = true) :
    kind ∉ [.opening .call, .opening .condition, .elseIfWord, .ifWord, .callName] := by
  intro hmem
  simp only [List.mem_cons, List.not_mem_nil, or_false] at hmem
  rcases hmem with rfl | rfl | rfl | rfl | rfl <;> cases h

/-- Every move of the reader keeps lexemes placed well. -/
theorem Placed.move (h : Placed a) (hmove : CodeMove src a b) : Placed b := by
  cases hmove with
  | plain start text hk _ => exact h.addPlain (notMem_of_isPlain hk) start text
  | newline start => exact h.newline start
  | word start cls text _ => exact h.word start cls text
  | scope start text _ => exact h.scope start text
  | round start text _ => exact h.openRound start text
  | opening start text hround _ => exact h.openBracket hround start text
  | closing start text _ _ => exact h.closeBracket _ _ start text
  | question start text _ =>
    have hasked : Placed { a with questions := a.depth :: a.questions } := h.same rfl
    exact hasked.addPlain (by decide) start text
  | colon start text _ => exact h.colon start text
  | semicolon start text _ =>
    have hasked : Placed { a with questions := a.questions.filter (· < a.depth) } := h.same rfl
    exact hasked.addPlain (by decide) start text

/-- No lexeme of a directive is code. -/
theorem Placed.directive (h : Placed a) (start : Nat) : Placed (a.directive src start) := by
  obtain ⟨new, hlex, hdir⟩ := exists_new_directive src start a
  refine h.same ?_
  rw [code, hlex, List.filter_append, List.filter_eq_nil_iff.2, List.nil_append, code]
  intro x hx
  rcases (hdir x hx).kind with hk | hk <;> rw [hk] <;> decide

/-- The newest lexeme of ordered code suits the one in front of it. -/
theorem Ordered.follows {p q : List Lexeme} {x : Lexeme} (h : Ordered (p ++ x :: q)) : x.Follows q.head? := by
  induction p with
  | nil => exact h.1
  | cons y p ih => exact ih h.2.2

/-- A name that is called has a parenthesis behind it, unless the name is the newest lexeme. -/
theorem Ordered.isCalled {p q : List Lexeme} {x : Lexeme} (h : Ordered (p ++ x :: q)) (hp : p ≠ []) : x.IsCalled p.getLast? := by
  induction p with
  | nil => exact absurd rfl hp
  | cons y p ih =>
    cases p with
    | nil => exact h.2.1 x rfl
    | cons z p =>
      rw [List.getLast?_cons_cons]
      exact ih h.2.2 (List.cons_ne_nil z p)

/-- What is placed well stands in front of what it is called with. -/
theorem Placed.isCalled {p q : List Lexeme} {x : Lexeme} (h : Placed a) (hcode : a.code = p ++ x :: q) : x.IsCalled p.getLast? := by
  cases p with
  | nil =>
    rw [List.nil_append] at hcode
    exact isCalled_of_ne (h.head_ne x (hcode ▸ rfl))
  | cons y p => exact Ordered.isCalled (hcode ▸ h.ordered) (List.cons_ne_nil y p)

/-! ## What belongs to a directive -/

/-- The lexemes read so far are marked: the pieces of a directive belong to it, and of the others only line breaks may. -/
def Marked (a : Annotator) : Prop :=
  ∀ x ∈ a.lexemes, (x.kind = .directive → x.inDirective = true) ∧
    (x.inDirective = true → x.kind = .directive ∨ x.kind = .newline)

/-- A lexeme that is added is marked by the code in front of it. -/
theorem Marked.add {kind : Kind} (h : Marked a) (hkind : kind ≠ .directive) (start : Nat) (text : Text) (owner : Kind) :
    Marked (a.add src kind start text owner false) := by
  intro x hx
  rcases List.mem_cons.1 hx with rfl | hx
  · exact ⟨fun hk => absurd hk hkind, fun hdir => absurd hdir Bool.false_ne_true⟩
  · exact h x hx

theorem Marked.addPlain {kind : Kind} (h : Marked a) (hkind : kind ≠ .directive) (start : Nat) (text : Text) :
    Marked (a.addPlain src kind start text) :=
  h.add hkind start text .nothing

/-- Changing the kind of a word leaves the marks of what was read. -/
theorem Marked.retype {kind : Kind} (h : Marked a) (hword : a.lastCode.kind = .word) (hkind : kind ≠ .directive) :
    Marked (a.retype kind) := by
  obtain ⟨p, y, q, hlex, hlex', hy, -⟩ := exists_retype kind hword
  intro x hx
  rw [hlex'] at hx
  rcases List.mem_append.1 hx with hx | hx
  · exact h x (by simp [hlex, hx])
  · rcases List.mem_cons.1 hx with rfl | hx
    · refine ⟨fun hk => absurd hk hkind, fun hdir => ?_⟩
      -- No word belongs to a directive.
      rcases (h y (by simp [hlex])).2 hdir with hk | hk <;> rw [hy] at hk <;> cases hk
    · exact h x (by simp [hlex, hx])

/-- Line breaks keep the marks. -/
theorem Marked.newline (h : Marked a) (start : Nat) : Marked (a.newline src start) := by
  rcases newline_cases src start a with hread | ⟨x, xs, hlex, -, hread⟩
  · rw [hread]
    exact h.addPlain (by decide) start _
  · rw [hread]
    intro y hy
    rcases List.mem_cons.1 hy with rfl | hy
    · exact h x (hlex ▸ List.mem_cons_self)
    · exact h y (hlex ▸ List.mem_cons_of_mem _ hy)

/-- Opening brackets are marked so. -/
theorem Marked.openBracket (h : Marked a) (bracket : Bracket) (start : Nat) (text : Text) (owner : Kind) :
    Marked (a.openBracket src bracket start text owner) := by
  have hadd : Marked (a.add src (.opening bracket) start text owner false) := h.add (by simp) start text owner
  exact hadd

theorem Marked.openRound (h : Marked a) (start : Nat) (text : Text) : Marked (a.openRound src start text) := by
  obtain ⟨b, bracket, owner, hopen, hb⟩ := exists_openRound src start text a
  have hname : Marked b := by
    rcases hb with rfl | ⟨hword, rfl | rfl⟩
    · exact h
    · exact h.retype hword (by decide)
    · exact h.retype hword (by decide)
  rw [hopen]
  exact hname.openBracket bracket start text owner

/-- Closing brackets are marked so. -/
theorem Marked.closeBracket (h : Marked a) (fits : Bracket → Bool) (alone : Bracket) (start : Nat) (text : Text) :
    Marked (a.closeBracket src fits alone start text) := by
  rcases closeBracket_cases src fits alone start text a with ⟨-, hread⟩ | ⟨inner, o, outer, c, -, -, -, hc, hread⟩
  · have hnoted : Marked (a.note (.unmatchedCloser text (src.lineAt start))) := h
    rw [hread]
    exact hnoted.addPlain (by simp) start text
  · have hclosed : Marked { c with opened := outer, questions := c.questions.filter (· ≤ outer.length) } := by
      rcases hc with rfl | ⟨n, rfl⟩ <;> exact h
    rw [hread]
    exact hclosed.add (by simp) start text o.owner

/-- Colons are marked so. -/
theorem Marked.colon (h : Marked a) (start : Nat) (text : Text) : Marked (a.colon src start text) := by
  rcases colon_cases src start text a with ⟨-, hread⟩ | ⟨rest, -, hread⟩
  · rw [hread]
    exact h.addPlain (by decide) start text
  · have hasked : Marked { a with questions := rest } := h
    rw [hread]
    exact hasked.addPlain (by decide) start text

/-- Every move of the reader keeps lexemes marked so. -/
theorem Marked.move (h : Marked a) (hmove : CodeMove src a b) : Marked b := by
  cases hmove with
  | plain start text hk _ =>
    refine h.addPlain ?_ start text
    rintro rfl
    cases hk
  | newline start => exact h.newline start
  | word start cls text _ =>
    have hkinds : ∀ kind ∈ wordKinds, kind ≠ .directive := by decide
    exact h.addPlain (hkinds _ (mem_wordKinds cls text a.lastCode.kind)) start text
  | scope start text _ =>
    refine Marked.addPlain ?_ (by decide) start text
    split_ifs with hword
    · exact h.retype hword (by decide)
    · exact h
  | round start text _ => exact h.openRound start text
  | opening start text _ _ => exact h.openBracket _ start text _
  | closing start text _ _ => exact h.closeBracket _ _ start text
  | question start text _ =>
    have hasked : Marked { a with questions := a.depth :: a.questions } := h
    exact hasked.addPlain (by decide) start text
  | colon start text _ => exact h.colon start text
  | semicolon start text _ =>
    have hasked : Marked { a with questions := a.questions.filter (· < a.depth) } := h
    exact hasked.addPlain (by decide) start text

/-- And so does a directive. -/
theorem Marked.directive (h : Marked a) (start : Nat) : Marked (a.directive src start) := by
  obtain ⟨new, hlex, hdir⟩ := exists_new_directive src start a
  intro x hx
  rw [hlex] at hx
  rcases List.mem_append.1 hx with hx | hx
  · exact ⟨fun _ => (hdir x hx).inDirective, fun _ => (hdir x hx).kind⟩
  · exact h x hx

end Annotator

open Annotator in
/-- In the strand that a source is read into, whatever the lexer made of it, every code lexeme suits the code lexemes next to it, the
pieces of directives belong to them, and of the other lexemes only line breaks may. -/
theorem Source.neighbours_read (src : Source) (ts : List Token) :
    (∀ p x q, (src.read ts).code = p ++ x :: q → x.Follows p.getLast? ∧ x.IsCalled q.head?) ∧
    ∀ x ∈ (src.read ts).lexemes, (x.kind = .directive → x.inDirective = true) ∧
      (x.inDirective = true → x.kind = .directive ∨ x.kind = .newline) := by
  have hmarked : Marked (src.annotate ts) :=
    tokens_invariant (fun _ _ h hmove => h.move hmove) (fun _ start h => h.directive start) Token.text_ne_nil_of_mem_pieces
      (fun x hx => nomatch hx)
  have hplaced : Placed (src.annotate ts) :=
    tokens_invariant (fun _ _ h hmove => h.move hmove) (fun _ start h => h.directive start) Token.text_ne_nil_of_mem_pieces
      placed_start
  refine ⟨?_, ?_⟩
  · intro p x q hsplit
    have hcode : (src.annotate ts).code = q.reverse ++ x :: p.reverse := by
      rw [Strand.code, lexemes_read, List.filter_reverse, List.reverse_eq_iff] at hsplit
      rw [code, hsplit, List.reverse_append, List.reverse_cons, List.append_assoc, List.singleton_append]
    have hfollows := Ordered.follows (hcode ▸ hplaced.ordered)
    have hcalled := hplaced.isCalled hcode
    rw [List.head?_reverse] at hfollows
    rw [List.getLast?_reverse] at hcalled
    exact ⟨hfollows, hcalled⟩
  · intro x hx
    rw [lexemes_read, List.mem_reverse] at hx
    exact hmarked x hx

end CodeGroom
