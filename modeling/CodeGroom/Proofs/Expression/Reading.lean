import CodeGroom.Grouping.Scan
import CodeGroom.Proofs.Bracket.Forest
import CodeGroom.Proofs.Expression.Tree

/-!
# Reading matched brackets

A forest is read like the lexemes in it, and reading it leaves alone what lies around it. Two readings need not be the same for
what is read next to make them so: a logical operator asks for the operand read last, any other operator and the end of a bracket
for all that was read since the last comma.
-/

namespace CodeGroom

/-- The shape of the bracket that the entry opens. -/
def Entry.shape (e : Entry) : Bracket :=
  match e.kind with
  | .opening b => b
  | _ => .paren

namespace Forest

/-- Reads a forest from its end. -/
def reads : Forest → Frame → Frame
  | nil, f => f
  | leaf e rest, f => (rest.reads f).read e.lexeme
  | group o inner _ rest, f => (rest.reads f).add (Frame.bracketed o.shape (inner.reads {}))

variable {F G : Forest} {d : Int}

/-- Forests are read from the end. -/
theorem reads_append (F G : Forest) (f : Frame) : (F ++ G).reads f = F.reads (G.reads f) := by
  induction F with
  | nil => rfl
  | leaf e rest ih => rw [leaf_append, reads, reads, ih]
  | group o inner c rest _ ih => rw [group_append, reads, reads, ih]

/-- Reading the entries of a forest changes the innermost inside only, as reading the forest does. -/
theorem ofLexemes_flatten (h : F.Fits d) (r : Reading) :
    Reading.ofLexemes (Entry.lexemes F.flatten) r = { r with top := F.reads r.top } := by
  induction F generalizing d r with
  | nil => rfl
  | leaf e rest ih =>
    obtain ⟨hk, -, hrest⟩ := h
    rw [flatten_leaf, Entry.lexemes_cons, Reading.ofLexemes, List.foldr_cons, ← Reading.ofLexemes, ih hrest, reads]
    unfold Reading.read
    cases hdir : e.lexeme.inDirective with
    | true => simp [Frame.read, hdir]
    | false =>
      have hne : ∀ b, e.lexeme.kind ≠ .opening b ∧ e.lexeme.kind ≠ .closing b := by
        intro b
        constructor <;> intro hb <;> simp [Entry.kind, hb, Kind.isBracket] at hk
      cases hkind : e.lexeme.kind with
      | opening b => exact absurd hkind (hne b).1
      | closing b => exact absurd hkind (hne b).2
      | _ => rfl
  | group o inner c rest ihi ih =>
    obtain ⟨⟨b, ho, hc⟩, -, ⟨hodir, hcdir⟩, hinner, hrest⟩ := h
    have hclose : Reading.read c.lexeme { r with top := rest.reads r.top } =
        { top := {}, outer := rest.reads r.top :: r.outer } := by
      have hkind : c.lexeme.kind = .closing b := hc
      have hdir : c.lexeme.inDirective = false := hcdir
      simp [Reading.read, hkind, hdir]
    have hopen : ∀ f : Frame, Reading.read o.lexeme { top := f, outer := rest.reads r.top :: r.outer } =
        { r with top := (rest.reads r.top).add (Frame.bracketed o.shape f) } := by
      intro f
      have hkind : o.lexeme.kind = .opening b := ho
      have hdir : o.lexeme.inDirective = false := hodir
      have hshape : o.shape = b := by simp [Entry.shape, ho]
      simp [Reading.read, hkind, hdir, hshape]
    have hrest' := ih hrest r
    have hinner' := ihi hinner { top := {}, outer := rest.reads r.top :: r.outer }
    simp only [Reading.ofLexemes] at hrest' hinner' ⊢
    rw [flatten_group, Entry.lexemes_cons, Entry.lexemes_append, Entry.lexemes_cons, List.foldr_cons, List.foldr_append,
      List.foldr_cons, hrest', hclose, hinner', hopen, reads]

/-- Reading does not look at depths. -/
theorem reads_change_deepen (F : Forest) (f : Frame) : (F.change Grouping.deepen).reads f = F.reads f := by
  induction F generalizing f with
  | nil => rfl
  | leaf e rest ih =>
    rw [change, reads, reads, ih]
    rfl
  | group o inner c rest ihi ih =>
    rw [change, reads, reads, ih, ihi]
    rfl

end Forest

/-- Whether a kind is read together with all that stands behind it up to the next comma. -/
def Kind.takesValue : Kind → Bool
  | assign | question | condColon | comma | returnWord | semicolon => true
  | _ => false

namespace Frame

variable {f f' : Frame}

/-- Two readings of which the operands read last are the same tree and all else is the same. -/
structure SameOperand (f f' : Frame) : Prop where
  operand : f.operand = f'.operand
  rest : { f with row := [] } = { f' with row := [] }

/-- Two readings of which what was read since the last comma is the same tree, and all else is the same. -/
structure SameValue (f f' : Frame) : Prop where
  assignment : f.assignment = f'.assignment
  commas : f.commas = f'.commas
  colons : f.colons = f'.colons
  statements : f.statements = f'.statements

theorem SameValue.refl (f : Frame) : SameValue f f := ⟨rfl, rfl, rfl, rfl⟩

theorem SameOperand.refl (f : Frame) : SameOperand f f := ⟨rfl, rfl⟩

/-- The same operand makes the same value. -/
theorem SameOperand.sameValue (h : SameOperand f f') : SameValue f f' := by
  obtain ⟨hoperand, hrest⟩ := h
  simp only [Frame.mk.injEq, true_and] at hrest
  obtain ⟨hconjuncts, hdisjuncts, htail, hcommas, hcolons, hstatements⟩ := hrest
  refine ⟨?_, hcommas, hcolons, hstatements⟩
  simp only [Frame.assignment, disjunction, conjunction, hoperand, hconjuncts, hdisjuncts, htail]

/-- The same value makes the same expression. -/
theorem SameValue.expression_eq (h : SameValue f f') : f.expression = f'.expression := by
  rw [expression, expression, h.assignment, h.commas]

/-- The same value makes the same statement. -/
theorem SameValue.statement_eq (h : SameValue f f') : f.statement = f'.statement := by
  rw [statement, statement, h.colons, h.expression_eq]

/-- The same value makes the same tree. -/
theorem SameValue.tree_eq (h : SameValue f f') : f.tree = f'.tree := by
  rw [tree, tree, h.statement_eq, h.statements]

/-- The same operand is joined in the same way. -/
theorem SameOperand.joinLogical_eq (h : SameOperand f f') (text : Text) : f.joinLogical text = f'.joinLogical text := by
  obtain ⟨hoperand, hrest⟩ := h
  simp only [Frame.mk.injEq, true_and] at hrest
  obtain ⟨hconjuncts, hdisjuncts, htail, hcommas, hcolons, hstatements⟩ := hrest
  simp only [joinLogical, conjunction, hoperand, hconjuncts, hdisjuncts, htail, hcommas, hcolons, hstatements]

/-- An operator other than a logical one, a return and a semicolon take all that was read since the last comma. -/
theorem SameValue.read_eq (h : SameValue f f') {x : Lexeme} (hdir : x.inDirective = false) (hk : x.kind.takesValue = true) :
    f.read x = f'.read x := by
  have hassign : ∀ text, f.assign text = f'.assign text := fun text => by
    rw [assign, assign, h.assignment, h.commas, h.colons, h.statements]
  have hask : f.ask = f'.ask := by rw [ask, ask, h.expression_eq, h.colons, h.statements]
  have hanswer : f.answer = f'.answer := by rw [answer, answer, h.assignment, h.commas, h.colons, h.statements]
  have hcomma : ∀ text, f.comma text = f'.comma text := fun text => by
    rw [comma, comma, h.assignment, h.commas, h.colons, h.statements]
  have hfinish : f.finish = f'.finish := by rw [finish, finish, h.statement_eq, h.statements]
  have hgive : ∀ text, f.giveBack text = f'.giveBack text := fun text => by rw [giveBack, giveBack, hfinish]
  unfold read
  rw [hdir]
  cases hkind : x.kind with
  | assign => exact hassign x.text
  | question => exact hask
  | condColon => exact hanswer
  | comma => exact hcomma x.text
  | returnWord => exact hgive x.text
  | semicolon => exact hfinish
  | _ => simp [hkind, Kind.takesValue] at hk

/-- A logical operator takes the operand read last. -/
theorem SameOperand.read_eq (h : SameOperand f f') {x : Lexeme} (hk : x.kind = .logical) (hdir : x.inDirective = false) :
    f.read x = f'.read x := by
  unfold read
  rw [hdir, hk]
  exact h.joinLogical_eq x.text

/-- Two readings between which what stands on the left makes no difference: a logical operator there takes an operand, anything
else a value. -/
def Agrees (left : Option Kind) (f f' : Frame) : Prop := if left = some .logical then SameOperand f f' else SameValue f f'

theorem Agrees.refl (left : Option Kind) (f : Frame) : Agrees left f f := by
  unfold Agrees
  split_ifs
  · exact .refl f
  · exact .refl f

/-- The same operand agrees with anything on the left. -/
theorem SameOperand.agrees (h : SameOperand f f') (left : Option Kind) : Agrees left f f' := by
  unfold Agrees
  split_ifs
  · exact h
  · exact h.sameValue

/-- The same value agrees where no logical operator is on the left. -/
theorem SameValue.agrees {left : Option Kind} (h : SameValue f f') (hleft : left ≠ some .logical) : Agrees left f f' := by
  rwa [Agrees, if_neg hleft]

/-- What ends a run, or a semicolon, reads two readings that agree as the same. -/
theorem Agrees.read_eq {x : Lexeme} (h : Agrees (some x.kind) f f') (hdir : x.inDirective = false)
    (hk : x.kind.endsRun = true ∨ x.kind = .semicolon) : f.read x = f'.read x := by
  unfold Agrees at h
  split_ifs at h with hlogical
  · exact h.read_eq (Option.some.inj hlogical) hdir
  · refine h.read_eq hdir ?_
    rcases hk with hk | hk
    · cases hkind : x.kind <;> simp_all [Kind.endsRun, Kind.takesValue]
    · rw [hk]
      rfl

/-- Nothing has been read since the last comma, colon or semicolon, or since the end of the bracket. -/
structure Fresh (f : Frame) : Prop where
  row : f.row = []
  conjuncts : f.conjuncts = []
  disjuncts : f.disjuncts = []
  tail : f.tail = .nothing

end Frame

namespace Forest

open CodeGroom.Frame

variable {F run : Forest}

/-- Nothing in the forest itself ends a run, a statement or a return. -/
def IsPlain : Forest → Prop
  | nil => True
  | leaf e rest => e.kind.endsRun = false ∧ e.kind ≠ .semicolon ∧ e.kind ≠ .returnWord ∧ rest.IsPlain
  | group o _ _ rest => o.kind.isBracket = true ∧ rest.IsPlain

/-- Whether an assignment stands in the forest itself, outside its brackets. -/
def hasAssign : Forest → Bool
  | nil => false
  | leaf e rest => e.kind = .assign || rest.hasAssign
  | group _ _ _ rest => rest.hasAssign

/-- Two parts are plain together if both are. -/
theorem isPlain_append {G : Forest} : (F ++ G).IsPlain ↔ F.IsPlain ∧ G.IsPlain := by
  induction F with
  | nil => simp [IsPlain]
  | leaf e rest ih => simp only [leaf_append, IsPlain, ih, and_assoc]
  | group o inner c rest _ ih => simp only [group_append, IsPlain, ih, and_assoc]

/-- An assignment is in one part or in the other one. -/
theorem hasAssign_append {G : Forest} : (F ++ G).hasAssign = (F.hasAssign || G.hasAssign) := by
  induction F with
  | nil => rfl
  | leaf e rest ih => simp only [leaf_append, hasAssign, ih, Bool.or_assoc]
  | group o inner c rest _ ih => simp only [group_append, hasAssign, ih]

/-- A lexeme of a plain run is an assignment or goes into the operand that is being read, if it does not say nothing. -/
theorem read_plain {x : Lexeme} (hends : x.kind.endsRun = false) (hsemi : x.kind ≠ .semicolon) (hret : x.kind ≠ .returnWord)
    (hassign : x.kind ≠ .assign) : (∀ f : Frame, f.read x = f) ∨ ∀ f : Frame, f.read x = f.add (.word x.kind x.text) := by
  cases hsilent : x.inDirective || !x.kind.isCode with
  | true => exact .inl fun f => by rw [Frame.read, hsilent, if_pos rfl]
  | false =>
    refine .inr ?_
    intro f
    rw [Frame.read, hsilent, if_neg Bool.false_ne_true]
    cases hkind : x.kind <;> simp_all [Kind.endsRun]

/-- A plain run without an assignment is a part of one operand. -/
theorem exists_row (h : F.IsPlain) (hno : F.hasAssign = false) : ∃ ts, ∀ f : Frame, F.reads f = { f with row := ts ++ f.row } := by
  induction F with
  | nil => exact ⟨[], fun f => rfl⟩
  | leaf e rest ih =>
    obtain ⟨hends, hsemi, hret, hrest⟩ := h
    simp only [hasAssign, Bool.or_eq_false_iff, decide_eq_false_iff_not] at hno
    obtain ⟨ts, hts⟩ := ih hrest hno.2
    rcases read_plain hends hsemi hret hno.1 with hread | hread
    · exact ⟨ts, fun f => by rw [reads, hread, hts]⟩
    · exact ⟨.word e.kind e.lexeme.text :: ts, fun f => by rw [reads, hread, hts]; rfl⟩
  | group o inner c rest _ ih =>
    obtain ⟨ts, hts⟩ := ih h.2 hno
    exact ⟨bracketed o.shape (inner.reads {}) :: ts, fun f => by rw [reads, hts]; rfl⟩

/-- A plain run leaves alone what stands behind a comma, a colon or a semicolon, and is read the same whatever does. -/
theorem reads_plain (h : F.IsPlain) (f : Frame) (commas : List Joint) (colons : List Otherwise) (statements : List Tree) :
    F.reads { f with commas, colons, statements } = { F.reads f with commas, colons, statements } := by
  induction F with
  | nil => rfl
  | leaf e rest ih =>
    obtain ⟨hends, hsemi, hret, hrest⟩ := h
    rw [reads, reads, ih hrest]
    by_cases hassign : e.kind = .assign
    · have hkind : e.lexeme.kind = .assign := hassign
      cases hdir : e.lexeme.inDirective with
      | true => simp [Frame.read, hdir]
      | false =>
        simp only [Frame.read, hdir, hkind]
        rfl
    · rcases read_plain hends hsemi hret hassign with hread | hread
      · rw [hread, hread]
      · rw [hread, hread]
        rfl
  | group o inner c rest _ ih =>
    rw [reads, reads, ih h.2]
    rfl

end Forest

end CodeGroom
