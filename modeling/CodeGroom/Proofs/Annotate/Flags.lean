import CodeGroom.Proofs.Annotate.Neighbours

/-!
# Looking back and carrying along

Of the code that was read, reading asks four things: whether a statement starts behind it, whether it reaches into the current line,
and what its last two lexemes are. Here they are read off the lexemes each time. A reader may as well carry them along: a lexeme of
code clears one flag and sets the other, the ends of statements set the first one again, a line feed clears the second one. Both
ways always give the same.
-/

namespace CodeGroom

/-- What is carried along: two flags, and the names of the last two lexemes of code, counted from the oldest lexeme. -/
structure Carried where
  startsStatement : Bool := true
  lineHasCode : Bool := false
  lastCode : Option Nat := none
  codeBeforeLast : Option Nat := none
deriving DecidableEq, Repr

namespace Carried

/-- Behind a lexeme of code with a name. -/
def addCode (name : Nat) (f : Carried) : Carried where
  startsStatement := false
  lineHasCode := true
  lastCode := some name
  codeBeforeLast := f.lastCode

/-- The next code starts a statement if one ends here. -/
def endStatementIf (ends : Bool) (f : Carried) : Carried := if ends then { f with startsStatement := true } else f

/-- The line ends. -/
def endLine (f : Carried) : Carried := { f with lineHasCode := false }

end Carried

namespace Annotator

/-- The lexeme with a name. -/
def named (a : Annotator) (o : Option Nat) : Lexeme := (o.bind (a.lexemes.reverse[·]?)).getD .absent

/-- What reading comes to, with what is carried along. A statement ends at six places: at `else` and `do`, at both braces, at the
parenthesis that closes a condition, and at a semicolon. -/
inductive Carries (src : Source) : Annotator → Carried → Prop where
  | start : Carries src {} {}
  | plain {a : Annotator} {f : Carried} {kind : Kind} (start : Nat) (text : Text) : Carries src a f → kind.isPlain = true →
      Carries src (a.addPlain src kind start text) (if kind.isCode then f.addCode a.lexemes.length else f)
  | newline {a : Annotator} {f : Carried} (start : Nat) : Carries src a f → Carries src (a.newline src start) f.endLine
  | word {a : Annotator} {f : Carried} {kind : Kind} (start : Nat) (cls : TokenClass) (text : Text) : Carries src a f →
      kind = wordKind cls text a.lastCode.kind →
      Carries src (a.word src start cls text) ((f.addCode a.lexemes.length).endStatementIf (kind = .elseWord || kind = .doWord))
  | scope {a : Annotator} {f : Carried} (start : Nat) (text : Text) : Carries src a f →
      Carries src ((if a.lastCode.kind = .word then a.retype .type else a).addPlain src .qualifier start text)
        (f.addCode a.lexemes.length)
  | round {a : Annotator} {f : Carried} (start : Nat) (text : Text) : Carries src a f →
      Carries src (a.openRound src start text) (f.addCode a.lexemes.length)
  | opening {a : Annotator} {f : Carried} {bracket : Bracket} (start : Nat) (text : Text) : Carries src a f →
      Carries src (a.openBracket src bracket start text .nothing) ((f.addCode a.lexemes.length).endStatementIf (bracket = .brace))
  | closing {a : Annotator} {f : Carried} {fits : Bracket → Bool} {alone : Bracket} {x : Lexeme} (start : Nat) (text : Text) :
      Carries src a f → (∀ b, fits b = alone.alike b) →
      (a.closeBracket src fits alone start text).lexemes = x :: a.lexemes →
      Carries src (a.closeBracket src fits alone start text)
        ((f.addCode a.lexemes.length).endStatementIf (alone = .brace || x.kind = .closing .condition))
  | question {a : Annotator} {f : Carried} (start : Nat) (text : Text) : Carries src a f →
      Carries src ({ a with questions := a.depth :: a.questions }.addPlain src .question start text) (f.addCode a.lexemes.length)
  | colon {a : Annotator} {f : Carried} (start : Nat) (text : Text) : Carries src a f →
      Carries src (a.colon src start text) (f.addCode a.lexemes.length)
  | semicolon {a : Annotator} {f : Carried} (start : Nat) (text : Text) : Carries src a f →
      Carries src ({ a with questions := a.questions.filter (· < a.depth) }.addPlain src .semicolon start text)
        ((f.addCode a.lexemes.length).endStatementIf true)
  | directive {a : Annotator} {f : Carried} (start : Nat) : Carries src a f → f.lineHasCode = false →
      Carries src (a.directive src start) f

end Annotator

/-- What of a lexeme the four questions look at: whether it breaks the line, is code, ends a statement. -/
structure Traits where
  breaks : Bool
  code : Bool
  ends : Bool
deriving DecidableEq, Repr

/-- The traits of the lexemes of a kind. -/
def Kind.traits (kind : Kind) : Traits := ⟨kind = .newline, kind.isCode, kind.endsStatement⟩

/-- The traits of a lexeme. -/
def Lexeme.traits (x : Lexeme) : Traits := x.kind.traits

theorem Kind.traits_of_isPlain {kind : Kind} (h : kind.isPlain = true) : kind.traits = ⟨false, kind.isCode, false⟩ := by
  cases kind <;> first | rfl | cases h

namespace Traits

variable {ts new : List Traits} {t : Traits} {f : Carried}

/-- The names of the lexemes of code, the newest first. -/
def codeNames : List Traits → List Nat
  | [] => []
  | t :: ts => if t.code then ts.length :: codeNames ts else codeNames ts

/-- What is carried along is what the traits of the lexemes tell, the newest first. -/
structure Tell (ts : List Traits) (f : Carried) : Prop where
  startsStatement : f.startsStatement = (ts.find? (·.code)).all (·.ends)
  lineHasCode : f.lineHasCode = (ts.takeWhile (!·.breaks)).any (·.code)
  lastCode : f.lastCode = (codeNames ts)[0]?
  codeBeforeLast : f.codeBeforeLast = (codeNames ts)[1]?

/-- Behind a lexeme of code. -/
theorem Tell.code (h : Tell ts f) (ends : Bool) :
    Tell (⟨false, true, ends⟩ :: ts) ((f.addCode ts.length).endStatementIf ends) := by
  have hlast := h.lastCode
  cases ends <;> exact ⟨rfl, rfl, rfl, hlast⟩

/-- Behind a lexeme that is no code. -/
theorem Tell.idle (h : Tell ts f) (ends : Bool) : Tell (⟨false, false, ends⟩ :: ts) f := ⟨h.startsStatement, h.lineHasCode, h.lastCode,
  h.codeBeforeLast⟩

/-- Behind a line break. -/
theorem Tell.newline (h : Tell ts f) (ends : Bool) : Tell (⟨true, false, ends⟩ :: ts) f.endLine :=
  ⟨h.startsStatement, rfl, h.lastCode, h.codeBeforeLast⟩

/-- Behind lexemes that are no code, on a line that has none in front of them. -/
theorem Tell.directive (h : Tell ts f) (hline : f.lineHasCode = false) (hnew : ∀ t ∈ new, t.code = false) : Tell (new ++ ts) f := by
  induction new with
  | nil => exact h
  | cons t new ih =>
    have hrest := ih fun u hu => hnew u (List.mem_cons_of_mem _ hu)
    have ht : t.code = false := hnew t List.mem_cons_self
    obtain ⟨breaks, code, ends⟩ := t
    obtain rfl : code = false := ht
    cases breaks with
    | false => exact hrest.idle ends
    | true =>
      have hend : f.endLine = f := by rw [Carried.endLine, ← hline]
      exact hend ▸ hrest.newline ends

theorem codeNames_lt {n : Nat} (h : n ∈ codeNames ts) : n < ts.length := by
  induction ts with
  | nil => cases h
  | cons t ts ih =>
    rw [codeNames] at h
    rw [List.length_cons]
    split_ifs at h
    · rcases List.mem_cons.1 h with rfl | h
      · exact Nat.lt_succ_self _
      · exact Nat.lt_succ_of_lt (ih h)
    · exact Nat.lt_succ_of_lt (ih h)

/-- The names of the code lead to the code. -/
theorem map_codeNames (xs : List Lexeme) :
    (codeNames (xs.map Lexeme.traits)).map (xs.reverse[·]?) = (xs.filter (·.kind.isCode)).map some := by
  induction xs with
  | nil => rfl
  | cons x xs ih =>
    have hold : (codeNames (xs.map Lexeme.traits)).map ((x :: xs).reverse[·]?) = (xs.filter (·.kind.isCode)).map some := by
      rw [← ih]
      refine List.map_congr_left fun n hn => ?_
      have hlt := codeNames_lt hn
      rw [List.length_map] at hlt
      rw [List.reverse_cons, List.getElem?_append_left (by simpa using hlt)]
    rw [List.map_cons, codeNames, List.length_map, List.filter_cons]
    have htrait : x.traits.code = x.kind.isCode := rfl
    rw [htrait]
    split_ifs
    · rw [List.map_cons, hold, List.map_cons, List.reverse_cons]
      simp
    · exact hold

end Traits

namespace Annotator

open Traits

variable {src : Source} {a b : Annotator} {f : Carried}

/-- What is carried along is told by the lexemes. -/
def Told (a : Annotator) (f : Carried) : Prop := Tell (a.lexemes.map Lexeme.traits) f

/-- Another kind for the last word leaves the traits of all lexemes, if lexemes of that kind are like words. -/
theorem map_traits_retype {kind : Kind} (hword : a.lastCode.kind = .word) (hkind : kind.traits = Kind.traits .word) :
    (a.retype kind).lexemes.map Lexeme.traits = a.lexemes.map Lexeme.traits := by
  obtain ⟨p, x, q, hlex, hlex', hx, -⟩ := exists_retype kind hword
  have htraits : ({ x with kind } : Lexeme).traits = x.traits := by rw [Lexeme.traits, Lexeme.traits, hx, hkind]
  rw [hlex, hlex', List.map_append, List.map_append, List.map_cons, List.map_cons, htraits]

/-- Reading a lexeme of code. -/
theorem Told.code (h : Told a f) (kind : Kind) (ends : Bool)
    (hlex : b.lexemes.map Lexeme.traits = kind.traits :: a.lexemes.map Lexeme.traits) (hkind : kind.traits = ⟨false, true, ends⟩) :
    Told b ((f.addCode a.lexemes.length).endStatementIf ends) := by
  have htell := Tell.code h ends
  rw [List.length_map, ← hkind, ← hlex] at htell
  exact htell

/-- Reading a line feed. -/
theorem Told.newline (h : Told a f) (start : Nat) : Told (a.newline src start) f.endLine := by
  rcases newline_cases src start a with hread | ⟨x, xs, hlex, hx, hread⟩
  · rw [hread]
    exact Tell.newline h false
  · -- A longer line break is a line break still, and the line is over already.
    have htraits : (a.newline src start).lexemes.map Lexeme.traits = a.lexemes.map Lexeme.traits := by rw [hread, hlex]; rfl
    have hline : f.lineHasCode = false := by
      rw [h.lineHasCode, hlex, List.map_cons, Lexeme.traits, hx]
      rfl
    have hend : f.endLine = f := by rw [Carried.endLine, ← hline]
    rw [Told, htraits, hend]
    exact h

/-- Reading a word. -/
theorem Told.word (h : Told a f) (start : Nat) (cls : TokenClass) (text : Text) {kind : Kind}
    (hkind : kind = wordKind cls text a.lastCode.kind) : Told (a.word src start cls text)
      ((f.addCode a.lexemes.length).endStatementIf (kind = .elseWord || kind = .doWord)) := by
  subst hkind
  have hkinds : ∀ kind ∈ wordKinds, kind.traits = ⟨false, true, kind = .elseWord || kind = .doWord⟩ := by decide
  exact h.code _ _ rfl (hkinds _ (mem_wordKinds cls text a.lastCode.kind))

/-- Reading `::`. -/
theorem Told.scope (h : Told a f) (start : Nat) (text : Text) :
    Told ((if a.lastCode.kind = .word then a.retype .type else a).addPlain src .qualifier start text)
      (f.addCode a.lexemes.length) := by
  refine h.code .qualifier false ?_ rfl
  split_ifs with hword
  · exact congrArg (Kind.traits .qualifier :: ·) (map_traits_retype hword rfl)
  · rfl

/-- Reading `(`. -/
theorem Told.round (h : Told a f) (start : Nat) (text : Text) : Told (a.openRound src start text) (f.addCode a.lexemes.length) := by
  obtain ⟨b, hb, htraits⟩ : ∃ b, b = (if a.lastCode.kind = .word then
      a.retype (if a.codeBeforeLast = .type ∨ a.codeBeforeLast = .word then .defName else .callName) else a) ∧
      b.lexemes.map Lexeme.traits = a.lexemes.map Lexeme.traits := by
    refine ⟨_, rfl, ?_⟩
    split_ifs with hword
    · exact map_traits_retype hword rfl
    · exact map_traits_retype hword rfl
    · rfl
  unfold openRound
  rw [← hb]
  dsimp only
  split_ifs
  · exact h.code (.opening .call) false (congrArg (_ :: ·) htraits) rfl
  · exact h.code (.opening .condition) false (congrArg (_ :: ·) htraits) rfl
  · exact h.code (.opening .paren) false (congrArg (_ :: ·) htraits) rfl

theorem traits_closing {alone k : Bracket} (h : alone.alike k = true) :
    (Kind.closing k).traits = ⟨false, true, alone = .brace || Kind.closing k = .closing .condition⟩ := by
  cases alone <;> cases k <;> first | rfl | cases h

/-- Reading a closing bracket. -/
theorem Told.closing {fits : Bracket → Bool} {alone : Bracket} {x : Lexeme} (h : Told a f) (start : Nat) (text : Text)
    (hfits : ∀ b, fits b = alone.alike b) (hlex : (a.closeBracket src fits alone start text).lexemes = x :: a.lexemes) :
    Told (a.closeBracket src fits alone start text)
      ((f.addCode a.lexemes.length).endStatementIf (alone = .brace || x.kind = .closing .condition)) := by
  obtain ⟨k, hk, hx⟩ : ∃ k, alone.alike k = true ∧ x.kind = .closing k := by
    rcases closeBracket_cases src fits alone start text a with ⟨-, hread⟩ | ⟨inner, o, outer, c, -, -, hfit, hc, hread⟩
    · rw [hread] at hlex
      exact ⟨alone, alone.alike_self, (congrArg Lexeme.kind (List.cons.inj hlex).1).symm⟩
    · rw [hread] at hlex
      exact ⟨o.bracket, (hfits _).symm.trans hfit, (congrArg Lexeme.kind (List.cons.inj hlex).1).symm⟩
  rw [hx]
  refine h.code _ _ ?_ (traits_closing hk)
  rw [hlex, List.map_cons, Lexeme.traits, hx]

/-- What is carried along is told by the lexemes, wherever reading comes to. -/
theorem Carries.told (h : Carries src a f) : Told a f := by
  induction h with
  | start => exact ⟨rfl, rfl, rfl, rfl⟩
  | @plain a f kind start text _ hk ih =>
    have htraits := Kind.traits_of_isPlain hk
    cases hcode : kind.isCode with
    | true =>
      rw [hcode] at htraits
      exact ih.code _ _ rfl htraits
    | false =>
      rw [hcode] at htraits
      have htell := Tell.idle ih false
      rw [← htraits] at htell
      exact htell
  | newline start _ ih => exact ih.newline start
  | word start cls text _ hkind ih => exact ih.word start cls text hkind
  | scope start text _ ih => exact ih.scope start text
  | round start text _ ih => exact ih.round start text
  | @opening a f bracket start text _ ih => 
    have htraits : (Kind.opening bracket).traits = ⟨false, true, bracket = .brace⟩ := by cases bracket <;> rfl
    exact ih.code _ _ rfl htraits
  | closing start text _ hfits hlex ih => exact ih.closing start text hfits hlex
  | question start text _ ih => exact ih.code .question false rfl rfl
  | @colon a f start text _ ih =>
    rcases colon_cases src start text a with ⟨-, hread⟩ | ⟨rest, -, hread⟩
    · exact ih.code .colon false (by rw [hread]; rfl) rfl
    · exact ih.code .condColon false (by rw [hread]; rfl) rfl
  | semicolon start text _ ih => exact ih.code .semicolon true rfl rfl
  | @directive a f start _ hline ih =>
    obtain ⟨new, hlex, hnew⟩ := exists_new_directive src start a
    rw [Told, hlex, List.map_append]
    refine Tell.directive ih hline fun t ht => ?_
    obtain ⟨x, hx, rfl⟩ := List.mem_map.1 ht
    rcases (hnew x hx).kind with hk | hk <;> rw [Lexeme.traits, hk] <;> rfl

/-- What reading asks of the code before it, carried along and read off the lexemes. -/
structure Agrees (a : Annotator) (f : Carried) : Prop where
  startsStatement : a.startsStatement = f.startsStatement
  lineHasCode : a.lineHasCode = f.lineHasCode
  lastCode : a.lastCode = a.named f.lastCode
  codeBeforeLast : a.codeBeforeLast = (a.named f.codeBeforeLast).kind

/-- The code before the last lexeme of code is the second one of the list of all code. -/
theorem codeBeforeLast_eq (a : Annotator) : a.codeBeforeLast = ((a.code[1]?).getD Lexeme.absent).kind := by
  rw [codeBeforeLast, code]
  induction a.lexemes with
  | nil => rfl
  | cons x xs ih =>
    cases hx : x.kind.isCode with
    | true => simp [hx, List.head?_filter, ← List.head?_eq_getElem?]
    | false => simpa [List.dropWhile_cons, hx] using ih

/-- The names of the code name it. -/
theorem named_codeNames (a : Annotator) (k : Nat) :
    a.named (codeNames (a.lexemes.map Lexeme.traits))[k]? = (a.code[k]?).getD Lexeme.absent := by
  have hget := congrArg (·[k]?) (map_codeNames a.lexemes)
  simp only [List.getElem?_map] at hget
  rw [named, code]
  cases hcode : (a.lexemes.filter (·.kind.isCode))[k]? with
  | none =>
    rw [hcode] at hget
    rw [Option.map_eq_none_iff.1 hget]
    rfl
  | some x =>
    rw [hcode] at hget
    obtain ⟨n, hn, hx⟩ := Option.map_eq_some_iff.1 hget
    rw [hn, Option.bind_some, hx]

/-- Wherever reading comes to, what is carried along is what the lexemes tell. -/
theorem Carries.agrees (h : Carries src a f) : Agrees a f := by
  obtain ⟨hstarts, hline, hlast, hbefore⟩ := h.told
  refine ⟨?_, ?_, ?_, ?_⟩
  · rw [hstarts, List.find?_map, Option.all_map]
    rfl
  · rw [hline, List.takeWhile_map, List.any_map]
    rfl
  · rw [hlast, named_codeNames, lastCode_eq, List.head?_eq_getElem?]
  · rw [hbefore, named_codeNames, codeBeforeLast_eq]

/-- A move of reading can be made with what is carried along. -/
theorem CodeMove.carries (h : CodeMove src a b) (ha : Carries src a f) : ∃ f, Carries src b f := by
  cases h with
  | plain start text hk _ => exact ⟨_, ha.plain start text hk⟩
  | newline start => exact ⟨_, ha.newline start⟩
  | word start cls text _ => exact ⟨_, ha.word start cls text rfl⟩
  | scope start text _ => exact ⟨_, ha.scope start text⟩
  | round start text _ => exact ⟨_, ha.round start text⟩
  | opening start text _ _ => exact ⟨_, ha.opening start text⟩
  | closing start text hfits _ =>
    obtain ⟨x, -, hlex, -⟩ := exists_closing src _ _ start text a
    exact ⟨_, ha.closing start text hfits hlex⟩
  | question start text _ => exact ⟨_, ha.question start text⟩
  | colon start text _ => exact ⟨_, ha.colon start text⟩
  | semicolon start text _ => exact ⟨_, ha.semicolon start text⟩

/-- Tokens can be read with what is carried along. -/
theorem Carries.tokens {ts : List Token} (ht : ∀ t ∈ ts, t.text ≠ []) (h : Carries src a f) : ∃ f, Carries src (a.tokens src ts) f := by
  induction ts generalizing a f with
  | nil => exact ⟨f, h⟩
  | cons t ts ih =>
    obtain ⟨f', hread⟩ : ∃ f, Carries src (token src a t) f := by
      rcases directive_or_moves_token src (ht t List.mem_cons_self) a with ⟨hreads, hread⟩ | hmoves
      · -- A directive is read on a line without code only.
        rw [hread]
        simp only [readsDirective, Bool.and_eq_true, Bool.not_eq_true'] at hreads
        exact ⟨f, h.directive _ (h.agrees.lineHasCode ▸ hreads.1.2)⟩
      · refine hmoves.invariant (P := fun b => ∃ f, Carries src b f) ?_ ⟨f, h⟩
        rintro b c ⟨f', hb⟩ hmove
        exact hmove.carries hb
    exact ih (fun u hu => ht u (List.mem_cons_of_mem _ hu)) hread


end Annotator

/-- However far a source has been read, what reading asks of the code before it is what it would carry along. -/
theorem Source.exists_carries (src : Source) {ts us : List Token} (h : us <+: Token.mergeRuns (Token.cutLines ts)) :
    ∃ f, Annotator.Carries src (({} : Annotator).tokens src us) f ∧ Annotator.Agrees (({} : Annotator).tokens src us) f := by
  have htext : ∀ t ∈ us, t.text ≠ [] := fun t ht => Token.text_ne_nil_of_mem_pieces t (h.subset ht)
  have hstart : Annotator.Carries src {} {} := .start
  obtain ⟨f, hcarries⟩ := hstart.tokens htext
  exact ⟨f, hcarries, hcarries.agrees⟩

end CodeGroom
