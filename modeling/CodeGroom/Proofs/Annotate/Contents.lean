import CodeGroom.Proofs.Annotate.Effects
import CodeGroom.Proofs.Annotate.Symbols

/-!
# What lexemes hold

A directive is read into directive lexemes and line breaks. A lexeme without symbols, such as the digits behind a lone sign, has
no gap either, so it leaves no trace in the text.
-/

namespace CodeGroom

/-- A lexeme as reading leaves it: in a directive it is a piece of it or a line break, and without symbols it has no gap. -/
structure Lexeme.WellRead (x : Lexeme) : Prop where
  directive : x.inDirective = true → x.kind = .directive ∨ x.kind = .newline
  gap : x.text = [] → x.gap = []

namespace Annotator

variable {src : Source} {a b : Annotator}

/-- Every lexeme so far is as reading leaves it. -/
def WellRead (a : Annotator) : Prop := ∀ x ∈ a.lexemes, x.WellRead

/-- A lexeme with symbols, or one that directly follows the one before it, that is read outside directives. -/
theorem WellRead.add (h : WellRead a) (kind : Kind) {start : Nat} {text : Text} (owner : Kind)
    (ht : text ≠ [] ∨ a.covered = start) : WellRead (a.add src kind start text owner false) := by
  intro x hx
  rcases List.mem_cons.1 hx with rfl | hx
  · refine ⟨(fun hdir => by cases hdir), ?_⟩
    rintro rfl
    show src.text.slice a.covered start = []
    rw [ht.resolve_left (not_not_intro rfl), Text.slice_self]
  · exact h x hx

theorem WellRead.closeBracket (h : WellRead a) (fits : Bracket → Bool) (alone : Bracket) (start : Nat) {text : Text}
    (ht : text ≠ []) : WellRead (a.closeBracket src fits alone start text) := by
  have hadd : ∀ (a' : Annotator) (kind owner : Kind), a'.lexemes = a.lexemes →
      WellRead (a'.add src kind start text owner false) := by
    intro a' kind owner hlex
    have h' : WellRead a' := fun x hx => h x (hlex ▸ hx)
    exact h'.add kind owner (.inl ht)
  unfold Annotator.closeBracket
  split
  · exact hadd _ _ _ rfl
  · dsimp only
    split_ifs
    · exact hadd _ _ _ rfl
    · exact hadd _ _ _ rfl

theorem WellRead.codeStep (h : WellRead a) (hstep : CodeStep src a b) : WellRead b := by
  cases hstep with
  | plain start text _ ht => exact h.add _ _ ht
  | opening bracket start text owner ht => exact h.add _ _ (.inl ht)
  | closing start text _ ht => exact h.closeBracket _ _ _ ht
  | @retyped kind hword _ =>
    obtain ⟨p, x, q, hlex, hlex', hx, -⟩ := exists_retype kind hword
    have hread := h x (by simp [hlex])
    intro y hy
    have hy' : y ∈ p ++ { x with kind } :: q := hlex' ▸ hy
    rcases List.mem_append.1 hy' with hy' | hy'
    · exact h y (by simp [hlex, hy'])
    · rcases List.mem_cons.1 hy' with rfl | hy'
      · refine ⟨fun hdir => ?_, hread.gap⟩
        rcases hread.directive hdir with hk | hk <;> rw [hx] at hk <;> cases hk
      · exact h y (by simp [hlex, hy'])
  | @lengthened x xs covered hlex hk =>
    have hread := h x (by simp [hlex])
    intro y hy
    rcases List.mem_cons.1 hy with rfl | hy
    · exact ⟨fun _ => .inr hk, hread.gap⟩
    · exact h y (by simp [hlex, hy])
  | asked questions => exact h

theorem WellRead.step (h : WellRead a) (hstep : Step src a b) : WellRead b := by
  cases hstep with
  | code hcode => exact h.codeStep hcode
  | directive start =>
    obtain ⟨new, hlex, hdir⟩ := exists_new_directive src start a
    intro x hx
    rw [hlex] at hx
    rcases List.mem_append.1 hx with hx | hx
    · have hx' := hdir x hx
      exact ⟨fun _ => hx'.kind, fun hnil => absurd hnil hx'.text⟩
    · exact h x hx

end Annotator

/-- All lexemes of a source are as reading leaves them. -/
theorem Source.wellRead (src : Source) (ts : List Token) : ∀ x ∈ (src.read ts).lexemes, x.WellRead := by
  have hread : Annotator.WellRead (src.annotate ts) :=
    (src.steps_annotate ts).invariant (fun _ _ h hstep => h.step hstep) fun x hx => by cases hx
  intro x hx
  rw [lexemes_read] at hx
  exact hread x (List.mem_reverse.1 hx)

end CodeGroom
