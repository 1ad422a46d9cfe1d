import CodeGroom.Proofs.Annotate.Steps
import CodeGroom.Proofs.Token.Tiling

/-!
# What a step does

Each step of reading either adds a lexeme at the depth of the brackets that are open, or changes the last code lexeme and nothing
that a bracket depends on, or reads a whole directive. A closing bracket takes the innermost open bracket that is written alike off
the brackets that are open, along with those opened behind it.
-/

namespace CodeGroom

/-- Whether the event is a directive that goes to another branch of a conditional or ends one. -/
def Event.switchesBranch : Event → Bool
  | .directiveRead word _ _ => Annotator.startsBranch word || Annotator.endsBranches word
  | _ => false

/-- The lexeme was read while the brackets `outer` were open: they determine its depths and its marks. -/
structure Lexeme.ReadWithin (outer : List Opener) (x : Lexeme) : Prop where
  depth : x.depth = outer.length
  braceDepth : x.braceDepth = outer.countP (·.bracket = .brace)
  inCondition : x.marks.inCondition = outer.any (·.bracket = .condition)
  inCall : x.marks.inCall = outer.any fun o => o.bracket = .call && o.owner = .callName

namespace Annotator

variable {src : Source} {a b : Annotator}

/-- The brackets, the branches and the trace are those before. -/
structure Unmoved (a b : Annotator) : Prop where
  opened : b.opened = a.opened
  branches : b.branches = a.branches
  trace : b.trace = a.trace

/-- What reading a closing bracket of shape `k` does: where no open bracket is written alike, all stay open; else the innermost
such one is closed along with those opened behind it. -/
inductive Closes (k : Bracket) (x : Lexeme) (a b : Annotator) : Prop where
  | nothing : (∀ o ∈ a.opened, k.alike o.bracket = false) → b.opened = a.opened → x.ReadWithin a.opened → Closes k x a b
  | innermost {inner outer : List Opener} {o : Opener} :
      a.opened = inner ++ o :: outer → (∀ u ∈ inner, k.alike u.bracket = false) → k = o.bracket → b.opened = outer →
      x.owner = o.owner → x.ReadWithin outer → Closes k x a b

/-- What a step does to the lexemes, the brackets, the branches and the trace. -/
inductive Effect (a b : Annotator) : Prop where
  | reads {x : Lexeme} : b.lexemes = x :: a.lexemes → x.kind.isBracket = false → x.depth = a.depth → Unmoved a b → Effect a b
  | changes {p q : List Lexeme} {x y : Lexeme} :
      a.lexemes = p ++ x :: q → b.lexemes = p ++ y :: q → (∀ z ∈ p, z.kind.isBracket = false) → x.kind.isBracket = false →
      y.kind.isBracket = false → y.depth = x.depth → Unmoved a b → Effect a b
  | asks : b.lexemes = a.lexemes → Unmoved a b → Effect a b
  | opens {x : Lexeme} {o : Opener} :
      b.lexemes = x :: a.lexemes → x.kind = .opening o.bracket → x.owner = o.owner → x.ReadWithin a.opened →
      o.id = a.lexemes.length → b.opened = o :: a.opened → b.branches = a.branches → b.trace = a.trace → Effect a b
  | closes {x : Lexeme} {k : Bracket} {news : Trace} :
      b.lexemes = x :: a.lexemes → x.kind = .closing k → Closes k x a b → b.branches = a.branches →
      b.trace = news ++ a.trace → (∀ e ∈ news, e.switchesBranch = false) → Effect a b
  | directive {word : Text} {new : List Lexeme} {line depth : Nat} :
      b.lexemes = new ++ a.lexemes → (∀ x ∈ new, DirectiveLexeme (a.enterDirective word).depth x) →
      b.opened = (a.enterDirective word).opened → b.branches = (a.enterDirective word).branches →
      b.trace = .directiveRead word line depth :: a.trace → Effect a b

/-- A lexeme is read while the open brackets are open. -/
theorem readWithin_add (src : Source) (kind : Kind) (start : Nat) (text : Text) (owner : Kind) (directive : Bool) (a : Annotator) :
    ∃ x : Lexeme, (a.add src kind start text owner directive).lexemes = x :: a.lexemes ∧ x.kind = kind ∧ x.owner = owner ∧
      x.ReadWithin a.opened :=
  ⟨_, rfl, rfl, rfl, rfl, rfl, rfl, rfl⟩

theorem effect_closeBracket {fits : Bracket → Bool} {alone : Bracket} (hfits : ∀ b, fits b = alone.alike b) (start : Nat)
    (text : Text) (a : Annotator) : Effect a (a.closeBracket src fits alone start text) := by
  rcases closeBracket_cases src fits alone start text a with ⟨hnone, hread⟩ | ⟨inner, o, outer, c, hsplit, hinner, hfit, hc, hread⟩
  · have hnone' : ∀ o ∈ a.opened, alone.alike o.bracket = false := fun o ho => (hfits _).symm.trans (hnone o ho)
    obtain ⟨x, hlex, hkind, -, hwithin⟩ := readWithin_add src (.closing alone) start text .nothing false
      (a.note (.unmatchedCloser text (src.lineAt start)))
    have htrace : (a.note (.unmatchedCloser text (src.lineAt start))).trace =
        [.unmatchedCloser text (src.lineAt start)] ++ a.trace := rfl
    rw [hread]
    exact .closes hlex hkind (.nothing hnone' rfl hwithin) rfl htrace (by simp [Event.switchesBranch])
  · have hinner' : ∀ u ∈ inner, o.bracket.alike u.bracket = false := by
      intro u hu
      rw [Bracket.alike_congr ((hfits _).symm.trans hfit), ← hfits]
      exact hinner u hu
    have hclosed : ∀ (c : Annotator) (news : Trace), c.lexemes = a.lexemes → c.branches = a.branches →
        c.trace = news ++ a.trace → (∀ e ∈ news, e.switchesBranch = false) → Effect a ({ c with
          opened := outer, questions := c.questions.filter (· ≤ outer.length) }.add src (.closing o.bracket) start text o.owner
          false) := by
      intro c news hlex hbranches htrace hnews
      obtain ⟨x, hadd, hkind, howner, hwithin⟩ := readWithin_add src (.closing o.bracket) start text o.owner false
        { c with opened := outer, questions := c.questions.filter (· ≤ outer.length) }
      exact .closes (hadd.trans (congrArg _ hlex)) hkind (.innermost hsplit hinner' rfl rfl howner hwithin) hbranches htrace hnews
    rw [hread]
    rcases hc with rfl | ⟨n, rfl⟩
    · exact hclosed c [] rfl rfl rfl (by simp)
    · exact hclosed _ [.unclosedOpeners n text (src.lineAt start)] rfl rfl rfl (by simp [Event.switchesBranch])

theorem CodeStep.effect (h : CodeStep src a b) : Effect a b := by
  cases h with
  | plain start text hk _ =>
    obtain ⟨x, hlex, hkind, -, hwithin⟩ := readWithin_add src _ start text .nothing false a
    exact .reads hlex (hkind ▸ hk) hwithin.depth ⟨rfl, rfl, rfl⟩
  | opening bracket start text owner _ =>
    obtain ⟨x, hlex, hkind, howner, hwithin⟩ := readWithin_add src (.opening bracket) start text owner false a
    exact .opens (o := ⟨a.lexemes.length, bracket, owner⟩) hlex hkind howner hwithin rfl rfl rfl rfl
  | closing start text hfits _ => exact effect_closeBracket hfits start text a
  | @retyped kind hword hk =>
    obtain ⟨p, x, q, hlex, hlex', hx, hp⟩ := exists_retype kind hword
    exact .changes hlex hlex' hp (hx ▸ rfl) hk rfl ⟨rfl, rfl, rfl⟩
  | @lengthened x xs covered hlex hk =>
    have hx : x.kind.isBracket = false := hk ▸ rfl
    exact .changes (p := []) hlex rfl (by simp) hx hx rfl ⟨rfl, rfl, rfl⟩
  | asked questions => exact .asks rfl ⟨rfl, rfl, rfl⟩

theorem Step.effect (h : Step src a b) : Effect a b := by
  cases h with
  | code h => exact h.effect
  | directive start =>
    obtain ⟨b, hadds, -, hopened, hbranches, line, depth, htrace⟩ := addsDirective_directive src start a
    obtain ⟨new, hlex, hdir⟩ := exists_new_directive src start a
    obtain ⟨-, htrace'⟩ := enterDirective_leaves (wordAt src start) a
    exact .directive hlex hdir (hopened.trans hadds.opened) (hbranches.trans hadds.branches)
      (htrace.trans (congrArg _ (hadds.trace.trans htrace')))

end Annotator

/-- Whatever the tokens are, a source is read in steps. -/
theorem Source.steps_annotate (src : Source) (ts : List Token) : Annotator.Steps src {} (src.annotate ts) :=
  Annotator.steps_of_tokens Token.text_ne_nil_of_mem_pieces {}

end CodeGroom
