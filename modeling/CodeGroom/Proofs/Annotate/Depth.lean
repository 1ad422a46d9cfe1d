import CodeGroom.Proofs.Annotate.Steps
import CodeGroom.Proofs.Token.Tiling

/-!
# Depths count brackets

In a source without directives whose brackets match, the depth of every lexeme is the number of brackets open around it. What the
reader keeps in its stack of open brackets is then what a walk over the lexemes so far would have open.
-/

namespace CodeGroom

/-- Whether lexemes of some kinds, read while the brackets `opened` are open, the innermost first, close just those, each closing
bracket the innermost open one of its own shape. -/
def bracketsMatch : List Bracket → List Kind → Bool
  | opened, [] => opened.isEmpty
  | opened, .opening b :: ks => bracketsMatch (b :: opened) ks
  | [], .closing _ :: _ => false
  | b' :: outer, .closing b :: ks => b' = b && bracketsMatch outer ks
  | opened, _ :: ks => bracketsMatch opened ks

namespace DepthAux

open Annotator

variable {src : Source} {a b : Annotator} {opened : List Bracket}

/-- The kinds of lexemes. -/
def kinds (xs : List Lexeme) : List Kind := xs.map (·.kind)

/-- What is no bracket does not matter for whether brackets match. -/
theorem bracketsMatch_other {k : Kind} (hk : k.isBracket = false) (opened : List Bracket) (ks : List Kind) :
    bracketsMatch opened (k :: ks) = bracketsMatch opened ks := by
  cases k <;> first | rfl | cases hk

/-- Two lexemes that play the same part in matching: brackets of the same kind, or no brackets. -/
structure Alike (x y : Lexeme) : Prop where
  depth : x.depth = y.depth
  inDirective : x.inDirective = y.inDirective
  kind : x.kind = y.kind ∨ x.kind.isBracket = false ∧ y.kind.isBracket = false

/-- Lexemes that are alike in this can stand for each other. -/
theorem bracketsMatch_alike {x y : Lexeme} (h : Alike x y) (p q : List Lexeme) (opened : List Bracket) :
    bracketsMatch opened (kinds (p ++ x :: q)) = bracketsMatch opened (kinds (p ++ y :: q)) := by
  induction p generalizing opened with
  | nil =>
    rcases h.kind with hk | ⟨hx, hy⟩
    · simp [kinds, hk]
    · exact (bracketsMatch_other hx _ _).trans (bracketsMatch_other hy _ _).symm
  | cons e p ih =>
    rw [List.cons_append, List.cons_append, kinds, kinds, List.map_cons, List.map_cons]
    cases hk : e.kind with
    | opening b => exact ih (b :: opened)
    | closing b =>
      cases opened with
      | nil => rfl
      | cons b' outer => exact congrArg (decide (b' = b) && ·) (ih outer)
    | _ => exact ih opened

/-- And they can with their depths. -/
theorem wellBracketed_alike {x y : Lexeme} (h : Alike x y) (p q : List Lexeme) (opened : List Bracket) :
    wellBracketed opened (p ++ x :: q) = true ↔ wellBracketed opened (p ++ y :: q) = true := by
  induction p generalizing opened with
  | nil =>
    rcases h.kind with hk | ⟨hx, hy⟩
    · rw [List.nil_append, List.nil_append, wellBracketed, wellBracketed, hk, h.depth, h.inDirective]
    · rw [List.nil_append, List.nil_append, BracketAux.wellBracketed_cons_other hx,
        BracketAux.wellBracketed_cons_other hy, h.depth]
  | cons e p ih =>
    rw [List.cons_append, List.cons_append, wellBracketed, wellBracketed]
    split
    · simp only [Bool.and_eq_true, ih]
    · cases opened with
      | nil => rfl
      | cons b' outer => simp only [Bool.and_eq_true, ih]
    · simp only [Bool.and_eq_true, ih]

/-- The open brackets, the innermost first. -/
def brackets (a : Annotator) : List Bracket := a.opened.map (·.bracket)

/-- What is known of the lexemes so far when no directive was read: either their brackets cannot be matched whatever follows, or
matching goes on from the brackets that the reader has open. -/
structure Nested (a : Annotator) : Prop where
  outside : ∀ x ∈ a.lexemes, x.inDirective = false
  matching : (∀ ys, bracketsMatch [] (kinds (a.lexemes.reverse ++ ys)) = false) ∨
    ∀ ys, bracketsMatch [] (kinds (a.lexemes.reverse ++ ys)) = bracketsMatch (brackets a) (kinds ys) ∧
      (wellBracketed (brackets a) ys = true → wellBracketed [] (a.lexemes.reverse ++ ys) = true)

/-- A lexeme is read: it either takes matching from the brackets open before to those open after, or ends it. -/
theorem Nested.read {x : Lexeme} (h : Nested a) (hlex : b.lexemes = x :: a.lexemes) (hx : x.inDirective = false)
    (hread : (∀ ks, bracketsMatch (brackets a) (x.kind :: ks) = false) ∨
      ∀ ys, bracketsMatch (brackets a) (x.kind :: kinds ys) = bracketsMatch (brackets b) (kinds ys) ∧
        (wellBracketed (brackets b) ys = true → wellBracketed (brackets a) (x :: ys) = true)) : Nested b := by
  have hrev : ∀ ys, b.lexemes.reverse ++ ys = a.lexemes.reverse ++ x :: ys := fun ys => by
    rw [hlex, List.reverse_cons, List.append_assoc, List.singleton_append]
  refine ⟨?_, ?_⟩
  · intro y hy
    rw [hlex] at hy
    rcases List.mem_cons.1 hy with rfl | hy
    · exact hx
    · exact h.outside y hy
  · rcases h.matching with hno | hyes
    · exact .inl fun ys => by rw [hrev, hno]
    · rcases hread with hends | hgoes
      · exact .inl fun ys => by
          rw [hrev, (hyes _).1]
          exact hends _
      · refine .inr ?_
        intro ys
        rw [hrev]
        exact ⟨(hyes (x :: ys)).1.trans (hgoes ys).1, fun hys => (hyes (x :: ys)).2 ((hgoes ys).2 hys)⟩

/-- One lexeme is changed for another that plays the same part. -/
theorem Nested.replace {x y : Lexeme} {p q : List Lexeme} (h : Nested a) (hlex : a.lexemes = p ++ x :: q)
    (hlex' : b.lexemes = p ++ y :: q) (hopened : b.opened = a.opened) (hxy : Alike x y) : Nested b := by
  have hrev : ∀ ys, a.lexemes.reverse ++ ys = q.reverse ++ x :: (p.reverse ++ ys) := fun ys => by simp [hlex]
  have hrev' : ∀ ys, b.lexemes.reverse ++ ys = q.reverse ++ y :: (p.reverse ++ ys) := fun ys => by simp [hlex']
  have hbrackets : brackets b = brackets a := by rw [brackets, hopened, brackets]
  refine ⟨?_, ?_⟩
  · intro e he
    rw [hlex'] at he
    simp only [List.mem_append, List.mem_cons] at he
    rcases he with he | rfl | he
    · exact h.outside e (by simp [hlex, he])
    · rw [← hxy.inDirective]
      exact h.outside x (by simp [hlex])
    · exact h.outside e (by simp [hlex, he])
  · rcases h.matching with hno | hyes
    · refine .inl ?_
      intro ys
      rw [hrev', ← bracketsMatch_alike hxy, ← hrev, hno]
    · refine .inr ?_
      intro ys
      rw [hrev', ← bracketsMatch_alike hxy, ← wellBracketed_alike hxy, ← hrev, hbrackets]
      exact hyes ys

theorem length_brackets (a : Annotator) : (brackets a).length = a.opened.length := List.length_map _

/-- A lexeme that is no bracket stands at the depth of what is open. -/
theorem Nested.addPlain {kind : Kind} (h : Nested a) (hk : kind.isBracket = false) (start : Nat) (text : Text) :
    Nested (a.addPlain src kind start text) := by
  refine h.read rfl rfl (.inr fun ys => ⟨bracketsMatch_other hk _ _, ?_⟩)
  intro hys
  refine (BracketAux.wellBracketed_cons_other hk ys).2 ⟨?_, hys⟩
  rw [length_brackets]
  rfl

/-- An opening bracket is one more that is open. -/
theorem Nested.openBracket (h : Nested a) (bracket : Bracket) (start : Nat) (text : Text) (owner : Kind) :
    Nested (a.openBracket src bracket start text owner) := by
  refine h.read rfl rfl (.inr fun ys => ⟨rfl, ?_⟩)
  intro hys
  refine (BracketAux.wellBracketed_cons_opening rfl ys).2 ⟨?_, rfl, hys⟩
  rw [length_brackets]
  rfl

/-- A closing bracket that is not of the shape of the innermost open one cannot be matched. -/
theorem bracketsMatch_closing_ne {b : Bracket} {opened : List Bracket} (h : opened.head? ≠ some b) (ks : List Kind) :
    bracketsMatch opened (.closing b :: ks) = false := by
  cases opened with
  | nil => rfl
  | cons b' outer =>
    have hne : b' ≠ b := fun heq => h (by rw [heq]; rfl)
    simp [bracketsMatch, hne]

/-- A closing bracket takes what is open down to the one that it fits. -/
theorem Nested.closeBracket {fits : Bracket → Bool} {alone : Bracket} (h : Nested a) (halone : fits alone = true)
    (start : Nat) (text : Text) : Nested (a.closeBracket src fits alone start text) := by
  rcases closeBracket_cases src fits alone start text a with ⟨hnone, hread⟩ | ⟨inner, o, outer, c, hsplit, hinner, hfit, hc, hread⟩
  · -- No open bracket fits, so the innermost one does not either.
    have hhead : (brackets a).head? ≠ some alone := by
      intro hhead
      obtain ⟨o, ho, rfl⟩ := List.mem_map.1 (List.mem_of_head? hhead)
      rw [hnone o ho] at halone
      cases halone
    rw [hread]
    exact h.read rfl rfl (.inl fun ks => bracketsMatch_closing_ne hhead ks)
  · have hinnermost : (∀ ks, bracketsMatch (brackets a) (.closing o.bracket :: ks) = false) ∨ a.opened = o :: outer := by
      cases inner with
      | nil => exact .inr hsplit
      | cons u inner =>
        refine .inl fun ks => bracketsMatch_closing_ne ?_ ks
        rw [brackets, hsplit]
        intro heq
        have hbracket : u.bracket = o.bracket := Option.some.inj heq
        have hu := hinner u List.mem_cons_self
        rw [hbracket, hfit] at hu
        cases hu
    have hclosed : ∀ a' : Annotator, a'.lexemes = a.lexemes → Nested ({ a' with
        opened := outer, questions := a'.questions.filter (· ≤ outer.length) }.add src (.closing o.bracket) start text o.owner
        false) := by
      intro a' hlex
      refine h.read (congrArg (_ :: ·) hlex) rfl (hinnermost.imp id ?_)
      intro hopened ys
      have hbrackets : brackets a = o.bracket :: outer.map (·.bracket) := by rw [brackets, hopened, List.map_cons]
      rw [hbrackets]
      refine ⟨?_, fun hys => (BracketAux.wellBracketed_cons_closing rfl ys).2 ⟨rfl, ?_, rfl, hys⟩⟩
      · rw [bracketsMatch, decide_eq_true (rfl : o.bracket = o.bracket), Bool.true_and]
        rfl
      · rw [List.length_map]
        rfl
    rw [hread]
    rcases hc with rfl | ⟨n, rfl⟩
    · exact hclosed _ rfl
    · exact hclosed _ rfl

/-- Every step of the reader keeps depths as they should be. -/
theorem Nested.step (h : Nested a) (hstep : CodeStep src a b) : Nested b := by
  cases hstep with
  | plain start text hk _ => exact h.addPlain hk start text
  | opening bracket start text owner _ => exact h.openBracket bracket start text owner
  | @closing fits alone start text hfits _ =>
    have halone : fits alone = true := (hfits alone).trans alone.alike_self
    exact h.closeBracket halone start text
  | @retyped kind hword hk =>
    obtain ⟨p, x, q, hlex, hlex', hx, -⟩ := exists_retype kind hword
    exact h.replace hlex hlex' rfl ⟨rfl, rfl, .inr ⟨by rw [hx]; rfl, hk⟩⟩
  | @lengthened x xs covered hlex _ => exact h.replace (p := []) hlex rfl rfl ⟨rfl, rfl, .inl rfl⟩
  | asked questions => exact ⟨h.outside, h.matching⟩

/-- Nothing is open before anything is read. -/
theorem nested_start : Nested {} where
  outside x hx := by cases hx
  matching := .inr fun _ => ⟨rfl, id⟩

end DepthAux

open DepthAux

/-- In a source without directives whose brackets match, no bracket is in a directive and depths count brackets. -/
theorem Source.wellBracketed_annotate (src : Source) {ts : List Token} (hdir : ∀ t ∈ ts, t.cls.within .directive = false)
    (hmatch : bracketsMatch [] ((src.annotate ts).lexemes.reverse.map (·.kind)) = true) :
    (∀ x ∈ (src.annotate ts).lexemes, x.inDirective = false) ∧
      wellBracketed [] (src.annotate ts).lexemes.reverse = true := by
  have hpieces : ∀ t ∈ Token.mergeRuns (Token.cutLines ts), t.cls.within .directive = false := by
    intro t ht
    obtain ⟨u, hu, htu⟩ := Token.cls_of_mem_mergeRuns ht
    obtain ⟨v, hv, huv⟩ := Token.cls_of_mem_cutLines hu
    rw [htu, huv]
    exact hdir v hv
  have hnested : Nested (src.annotate ts) :=
    (Annotator.steps_tokens Token.text_ne_nil_of_mem_pieces hpieces {}).invariant (fun _ _ h hstep => h.step hstep) nested_start
  refine ⟨hnested.outside, ?_⟩
  rcases hnested.matching with hno | hyes
  · have hnil := hno []
    rw [List.append_nil, kinds, hmatch] at hnil
    cases hnil
  · obtain ⟨hkinds, hbrackets⟩ := hyes []
    rw [List.append_nil, kinds, hmatch] at hkinds
    rw [List.append_nil] at hbrackets
    exact hbrackets hkinds.symm

end CodeGroom
