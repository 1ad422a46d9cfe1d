import CodeGroom.Proofs.Expression.Reading
import Mathlib.Algebra.GroupWithZero.Nat

/-!
# How far assignments are sunk

An assignment binds less than a logical operator or a `?`, so that only parentheses put one below them. What has been read is
weighed by its assignments and by how many such operators each of them lies below. What is read next adds to the heavier of two
readings at least what it adds to the other, so a reading that has become heavier never comes back to what it was.
-/

namespace CodeGroom

namespace Tree

/-- The assignments outside brackets that are no plain parentheses. -/
def assignments : Tree → Nat
  | missing | word _ _ | bracket _ _ => 0
  | beside t u => t.assignments + u.assignments
  | binary k _ l r => (if k = .assign then 1 else 0) + (l.assignments + r.assignments)
  | choice c y n => c.assignments + (y.assignments + n.assignments)
  | followed s r => s.assignments + r.assignments

/-- For each logical operator the assignments that are its operands or lie in them, and for each `?:` those in its condition. -/
def sunk : Tree → Nat
  | missing | word _ _ => 0
  | beside t u => t.sunk + u.sunk
  | bracket _ t => t.sunk
  | binary k _ l r => (if k = .logical then l.assignments + r.assignments else 0) + (l.sunk + r.sunk)
  | choice c y n => c.assignments + (c.sunk + (y.sunk + n.sunk))
  | followed s r => s.sunk + r.sunk

/-- A tree with a hole in it that lies below `n` logical operators and conditions. -/
structure Hole (n : Nat) (C : Tree → Tree) : Prop where
  assignments (t : Tree) : (C t).assignments = t.assignments + (C missing).assignments
  sunk (t : Tree) : (C t).sunk = t.sunk + n * t.assignments + (C missing).sunk

variable {m n : Nat} {C D : Tree → Tree}

/-- A hole in what fills another hole lies below the operators of both. -/
theorem Hole.comp (hD : Hole n D) (hC : Hole m C) : Hole (m + n) (fun t => D (C t)) := by
  constructor
  · intro t
    rw [hD.assignments, hD.assignments (C missing), hC.assignments]
    omega
  · intro t
    have hmul : n * (t.assignments + (C missing).assignments) = n * t.assignments + n * (C missing).assignments :=
      Nat.mul_add _ _ _
    rw [hD.sunk, hD.sunk (C missing), hC.assignments, hC.sunk, hmul, Nat.add_mul]
    omega

/-- Nothing lies around a tree alone. -/
theorem hole_id : Hole 0 (fun t => t) := by
  constructor <;> intro t <;> simp [assignments, sunk]

/-- An operator that is no logical one does not count. -/
theorem hole_binary {k : Kind} (hk : k ≠ .logical) (text : Text) (r : Tree) : Hole 0 (fun t => binary k text t r) := by
  constructor
  · intro t
    simp only [assignments]
    omega
  · intro t
    simp only [sunk, if_neg hk, Nat.zero_mul]
    omega

/-- A logical operator counts for its left operand. -/
theorem hole_logical (text : Text) (r : Tree) : Hole 1 (fun t => binary .logical text t r) := by
  constructor
  · intro t
    simp only [assignments]
    omega
  · intro t
    simp only [assignments, sunk, if_true, Nat.one_mul]
    omega

/-- A `?:` counts for its condition. -/
theorem hole_choice (y n : Tree) : Hole 1 (fun t => choice t y n) := by
  constructor
  · intro t
    simp only [assignments]
    omega
  · intro t
    simp only [assignments, sunk, Nat.one_mul]
    omega

/-- Joints of an operator that is no logical one do not count. -/
theorem hole_join {k : Kind} (hk : k ≠ .logical) (js : List Joint) : Hole 0 (fun t => t.join k js) := by
  induction js with
  | nil => exact hole_id
  | cons j js ih => exact ih.comp (hole_binary hk j.text j.operand)

/-- Each logical operator that joins counts. -/
theorem hole_joinLogical (js : List Joint) : Hole js.length (fun t => t.join .logical js) := by
  induction js with
  | nil => exact hole_id
  | cons j js ih =>
    rw [List.length_cons, Nat.add_comm]
    exact ih.comp (hole_logical j.text j.operand)

/-- Statements in front do not count. -/
theorem hole_ofStatements (ss : List Tree) : Hole 0 (fun t => ofStatements t ss) := by
  cases ss with
  | nil => exact hole_id
  | cons s ss => constructor <;> intro t <;> simp [ofStatements, assignments, sunk]

/-- Colons and commas do not count. -/
theorem hole_colons (cs : List Otherwise) :
    Hole 0 (fun t => cs.foldl (fun t c => (binary .condColon [] t c.no).join .comma c.commas) t) := by
  induction cs with
  | nil => exact hole_id
  | cons c cs ih => exact ih.comp ((hole_join (by simp) c.commas).comp (hole_binary (by simp) [] c.no))

/-- A row is as heavy as its parts together. -/
theorem ofRow_sums (ts : List Tree) :
    (ofRow ts).assignments = (ts.map assignments).sum ∧ (ofRow ts).sunk = (ts.map sunk).sum := by
  have hfold : ∀ ts : List Tree, (ts.foldr beside missing).assignments = (ts.map assignments).sum ∧
      (ts.foldr beside missing).sunk = (ts.map sunk).sum := by
    intro ts
    induction ts with
    | nil => exact ⟨rfl, rfl⟩
    | cons t ts ih => exact ⟨by simp [assignments, ih.1], by simp [sunk, ih.2]⟩
  match ts with
  | [] => exact ⟨rfl, rfl⟩
  | [t] => simp [ofRow]
  | t :: u :: ts => exact hfold _

end Tree

/-- What counts of what has been read: its assignments in all and how far they are sunk, the assignments in the operand read last
and in that with what `&&` has joined to it, and how many logical operators and conditions the two lie below. -/
structure Weight where
  assignments : Nat
  sunk : Nat
  operand : Nat
  conjunction : Nat
  aboveOperand : Nat
  aboveConjunction : Nat

namespace Weight

/-- One more part of the operand. -/
def add (a s : Nat) (w : Weight) : Weight :=
  { w with
    assignments := w.assignments + a
    sunk := w.sunk + (s + w.aboveOperand * a)
    operand := w.operand + a
    conjunction := w.conjunction + a }

/-- A new operand in front of a logical operator. -/
def joinLogical (isOr : Bool) (w : Weight) : Weight :=
  if isOr then { w with
    sunk := w.sunk + w.conjunction
    operand := 0
    conjunction := 0
    aboveOperand := w.aboveConjunction + 1
    aboveConjunction := w.aboveConjunction + 1 }
  else { w with
    sunk := w.sunk + w.operand
    operand := 0
    aboveOperand := w.aboveOperand + 1 }

/-- A new operand that lies below so many operators, and so many more assignments. -/
def restart (above more : Nat) (w : Weight) : Weight :=
  ⟨w.assignments + more, w.sunk, 0, 0, above, above⟩

/-- A weight is no less than another one in anything, and its assignments are sunk by at least `n` more. -/
structure Gains (n : Nat) (w w' : Weight) : Prop where
  assignments : w.assignments ≤ w'.assignments
  sunk : w.sunk + n ≤ w'.sunk
  operand : w.operand ≤ w'.operand
  conjunction : w.conjunction ≤ w'.conjunction
  aboveOperand : w.aboveOperand ≤ w'.aboveOperand
  aboveConjunction : w.aboveConjunction ≤ w'.aboveConjunction

variable {m n : Nat} {w w' w'' : Weight}

/-- A weight gains nothing on itself. -/
theorem Gains.refl (w : Weight) : Gains 0 w w := ⟨le_rfl, le_rfl, le_rfl, le_rfl, le_rfl, le_rfl⟩

/-- Gains add up. -/
theorem Gains.trans (h : Gains m w w') (h' : Gains n w' w'') : Gains (m + n) w w'' := by
  obtain ⟨h1, h2, h3, h4, h5, h6⟩ := h
  obtain ⟨h1', h2', h3', h4', h5', h6'⟩ := h'
  constructor <;> omega

theorem Gains.mono (h : Gains n w w') (hm : m ≤ n) : Gains m w w' := { h with sunk := by have := h.sunk; omega }

/-- One more part of both operands, the heavier in the heavier one, keeps what was gained and adds what it gains itself. -/
theorem Gains.add {a a' s s' : Nat} (h : Gains n w w') (ha : a ≤ a') (hs : s + m ≤ s') :
    Gains (n + m) (w.add a s) (w'.add a' s') := by
  obtain ⟨h1, h2, h3, h4, h5, h6⟩ := h
  have hmul : w.aboveOperand * a ≤ w'.aboveOperand * a' := Nat.mul_le_mul h5 ha
  constructor <;> simp only [Weight.add] <;> omega

/-- A logical operator behind both keeps what was gained. -/
theorem Gains.joinLogical (h : Gains n w w') (isOr : Bool) : Gains n (w.joinLogical isOr) (w'.joinLogical isOr) := by
  obtain ⟨h1, h2, h3, h4, h5, h6⟩ := h
  unfold Weight.joinLogical
  split_ifs <;> constructor <;> dsimp only <;> omega

/-- And so does a new start of both. -/
theorem Gains.restart (h : Gains n w w') (above more : Nat) : Gains n (w.restart above more) (w'.restart above more) := by
  obtain ⟨h1, h2, h3, h4, h5, h6⟩ := h
  constructor <;> simp only [Weight.restart] <;> omega

/-- A weight is no less than another one, and its assignments either are sunk further or will be when the logical operator on the
left takes what was read. -/
def Sinks (left : Option Kind) (w w' : Weight) : Prop :=
  Gains 1 w w' ∨ left = some .logical ∧ Gains 0 w w' ∧ w.operand < w'.operand ∧ w.conjunction < w'.conjunction

variable {left : Option Kind}

/-- What is no lighter than one weight is sunk below a third one where that one is. -/
theorem Gains.trans_sinks (h : Gains 0 w w') (h' : Sinks left w' w'') : Sinks left w w'' := by
  rcases h' with h' | ⟨hleft, h', hoperand, hconjunction⟩
  · exact .inl (h.trans h')
  · exact .inr ⟨hleft, h.trans h', by have := h.operand; omega, by have := h.conjunction; omega⟩

/-- What a logical operator on the left will sink is sunk when it is read. -/
theorem Sinks.joinLogical (h : Sinks (some .logical) w w') (isOr : Bool) :
    Gains 1 (w.joinLogical isOr) (w'.joinLogical isOr) := by
  rcases h with h | ⟨-, h, hoperand, hconjunction⟩
  · exact h.joinLogical isOr
  · obtain ⟨h1, h2, h3, h4, h5, h6⟩ := h
    unfold Weight.joinLogical
    split_ifs <;> constructor <;> dsimp only <;> omega

end Weight

namespace Frame

open CodeGroom.Tree

/-- How many operators of `||` and conditions what has been read since lies below. -/
def aboveConjunction (f : Frame) : Nat :=
  f.disjuncts.length + match f.tail with
    | .chosen _ _ => 1
    | _ => 0

/-- The weight of what has been read. -/
def weight (f : Frame) : Weight :=
  ⟨f.tree.assignments, f.tree.sunk, f.operand.assignments, f.conjunction.assignments,
    f.conjuncts.length + f.aboveConjunction, f.aboveConjunction⟩

variable {f f' : Frame} {n : Nat}

/-- Where the operand read last stands in all that has been read. -/
theorem hole_tree (f : Frame) :
    Hole (f.conjuncts.length + f.aboveConjunction) (fun t => ({ f with row := [t] } : Frame).tree) := by
  have hdisjunction : Hole (f.conjuncts.length + f.disjuncts.length)
      (fun t => ({ f with row := [t] } : Frame).disjunction) :=
    (hole_joinLogical f.disjuncts).comp (hole_joinLogical f.conjuncts)
  have hassignment : Hole (f.conjuncts.length + f.aboveConjunction)
      (fun t => ({ f with row := [t] } : Frame).assignment) := by
    unfold Frame.assignment aboveConjunction
    cases f.tail with
    | nothing => exact hdisjunction
    | assigned text value => exact (hole_binary (by simp) text value).comp hdisjunction
    | chosen yes no =>
      rw [← Nat.add_assoc]
      exact (hole_choice yes no).comp hdisjunction
  exact (hole_ofStatements f.statements).comp
    ((hole_colons f.colons).comp ((hole_join (by simp) f.commas).comp hassignment))

/-- The operand read last counts by itself and by what it lies below. -/
theorem tree_sums (f : Frame) :
    f.tree.assignments = f.operand.assignments + ({ f with row := [] } : Frame).tree.assignments ∧
      f.tree.sunk = f.operand.sunk + (f.conjuncts.length + f.aboveConjunction) * f.operand.assignments +
        ({ f with row := [] } : Frame).tree.sunk :=
  ⟨f.hole_tree.assignments f.operand, f.hole_tree.sunk f.operand⟩

/-- The operand read last counts in its conjunction by itself. -/
theorem conjunction_assignments (f : Frame) :
    f.conjunction.assignments = f.operand.assignments + ({ f with row := [] } : Frame).conjunction.assignments :=
  (hole_joinLogical f.conjuncts).assignments f.operand

/-- One more part of the operand, as the weight shows it. -/
theorem weight_add (t : Tree) (f : Frame) : (f.add t).weight = f.weight.add t.assignments t.sunk := by
  have hoperand : (f.add t).operand.assignments = t.assignments + f.operand.assignments ∧
      (f.add t).operand.sunk = t.sunk + f.operand.sunk := by
    simp only [operand, Frame.add, ofRow_sums, List.map_cons, List.sum_cons, and_self]
  have hrest : ({ f.add t with row := [] } : Frame) = { f with row := [] } := rfl
  have hnew := tree_sums (f.add t)
  have hold := tree_sums f
  have habove : (f.add t).conjuncts.length + (f.add t).aboveConjunction = f.conjuncts.length + f.aboveConjunction := rfl
  have hconj := conjunction_assignments (f.add t)
  have hconj' := conjunction_assignments f
  rw [hrest, habove, hoperand.1, hoperand.2, Nat.mul_add] at hnew
  rw [hrest, hoperand.1] at hconj
  rw [weight, weight, Weight.add, Weight.mk.injEq, habove, hoperand.1]
  dsimp only
  exact ⟨by omega, by omega, by omega, by omega, rfl, rfl⟩

/-- Two readings that hold different trees in the same place. -/
theorem sums_of_hole {g : Frame} (h : Frame) {t u : Tree} (hf : f.tree = ({ h with row := [t] } : Frame).tree)
    (hg : g.tree = ({ h with row := [u] } : Frame).tree) (hassignments : u.assignments = t.assignments + n) :
    g.tree.assignments = f.tree.assignments + n ∧ g.tree.sunk + t.sunk =
      f.tree.sunk + (u.sunk + (h.conjuncts.length + h.aboveConjunction) * n) := by
  have hhole := h.hole_tree
  have ht := hhole.sunk t
  have hu := hhole.sunk u
  have ht' := hhole.assignments t
  have hu' := hhole.assignments u
  rw [hassignments, Nat.mul_add] at hu
  rw [hf, hg]
  exact ⟨by omega, by omega⟩

/-- A logical operator, as the weight shows it. -/
theorem weight_joinLogical (text : Text) (f : Frame) : (f.joinLogical text).weight = f.weight.joinLogical (isOr text) := by
  unfold joinLogical Weight.joinLogical
  split_ifs
  · obtain ⟨ha, hs⟩ := sums_of_hole (f := f) (n := 0) { f with conjuncts := [] } (t := f.conjunction)
      (u := .binary .logical text .missing f.conjunction)
      (g := { f with row := [], conjuncts := [], disjuncts := ⟨text, f.conjunction⟩ :: f.disjuncts }) rfl rfl
      (by simp [Tree.assignments])
    simp only [Tree.sunk, Tree.assignments, if_true] at hs
    rw [weight, weight, Weight.mk.injEq]
    refine ⟨ha, ?_, rfl, rfl, ?_, ?_⟩
    · dsimp only
      omega
    · simp only [aboveConjunction, List.length_nil, List.length_cons]
      omega
    · simp only [aboveConjunction, List.length_cons]
      omega
  · obtain ⟨ha, hs⟩ := sums_of_hole (f := f) (n := 0) f (t := f.operand) (u := .binary .logical text .missing f.operand)
      (g := { f with row := [], conjuncts := ⟨text, f.operand⟩ :: f.conjuncts }) rfl rfl
      (by simp [Tree.assignments])
    have hconjunction := (hole_joinLogical f.conjuncts).assignments (.binary .logical text .missing f.operand)
    have hconjunction' := (hole_joinLogical f.conjuncts).assignments f.operand
    simp only [Tree.sunk, Tree.assignments, if_true] at hs hconjunction
    rw [weight, weight, Weight.mk.injEq]
    refine ⟨ha, ?_, rfl, ?_, ?_, rfl⟩
    · dsimp only
      omega
    · show ((Tree.binary .logical text .missing f.operand).join .logical f.conjuncts).assignments = _
      rw [hconjunction, conjunction, hconjunction']
      simp
    · simp only [aboveConjunction, List.length_cons]
      omega

/-- Where all that was read since the last comma, colon or semicolon becomes a part of a new tree in its place, a new operand
starts in front of that. -/
theorem weight_restart {g h : Frame} {t u : Tree} (hf : f.tree = ({ h with row := [t] } : Frame).tree)
    (hg : g.tree = ({ h with row := [u] } : Frame).tree) (hassignments : u.assignments = t.assignments + n)
    (hsunk : u.sunk = t.sunk) (hh : h.conjuncts.length + h.aboveConjunction = 0)
    (hrow : g.row = []) (hconjuncts : g.conjuncts = []) :
    g.weight = f.weight.restart g.aboveConjunction n := by
  obtain ⟨ha, hs⟩ := sums_of_hole h hf hg hassignments
  rw [hh, Nat.zero_mul, hsunk] at hs
  have hoperand : g.operand = .missing := by
    rw [operand, hrow]
    rfl
  have hconjunction : g.conjunction = .missing := by
    rw [conjunction, hoperand, hconjuncts]
    rfl
  rw [weight, weight, Weight.restart, Weight.mk.injEq, hconjunction, hoperand, hconjuncts]
  dsimp only
  refine ⟨ha, by omega, rfl, rfl, by simp, rfl⟩

/-- An assignment, as the weight shows it: a new operand starts that lies below nothing. -/
theorem weight_assign (text : Text) (f : Frame) : (f.assign text).weight = f.weight.restart 0 1 :=
  weight_restart (h := { commas := f.commas, colons := f.colons, statements := f.statements }) (t := f.assignment)
    (u := .binary .assign text .missing f.assignment) rfl rfl (by simp [Tree.assignments]; omega) (by simp [Tree.sunk]) rfl rfl
    rfl

theorem weight_comma (text : Text) (f : Frame) : (f.comma text).weight = f.weight.restart 0 0 :=
  weight_restart (h := { commas := f.commas, colons := f.colons, statements := f.statements }) (t := f.assignment)
    (u := .binary .comma text .missing f.assignment) rfl rfl (by simp [Tree.assignments]) (by simp [Tree.sunk]) rfl rfl rfl

theorem weight_answer (f : Frame) : f.answer.weight = f.weight.restart 0 0 :=
  weight_restart (h := { commas := f.commas, colons := f.colons, statements := f.statements }) (t := f.assignment)
    (u := .binary .condColon [] .missing f.assignment) rfl rfl (by simp [Tree.assignments]) (by simp [Tree.sunk]) rfl rfl rfl

theorem weight_finish (f : Frame) : f.finish.weight = f.weight.restart 0 0 :=
  weight_restart (h := {}) (t := f.tree) (u := .followed .missing f.tree) rfl rfl (by simp [Tree.assignments])
    (by simp [Tree.sunk]) rfl rfl rfl

/-- A `?`, as the weight shows it: a new operand starts that lies below the condition. -/
theorem weight_ask (f : Frame) : f.ask.weight = f.weight.restart 1 0 := by
  unfold ask
  split
  next hcolons =>
    refine weight_restart (h := { statements := f.statements }) (t := f.expression) (u := .choice .missing f.expression .missing)
      ?_ rfl (by simp [Tree.assignments]) (by simp [Tree.sunk, Tree.assignments]) rfl rfl rfl
    rw [tree, statement, hcolons]
    rfl
  next c cs hcolons =>
    refine weight_restart (h := { commas := c.commas, colons := cs, statements := f.statements })
      (t := .binary .condColon [] f.expression c.no) (u := .choice .missing f.expression c.no)
      ?_ rfl (by simp [Tree.assignments]) (by simp [Tree.sunk, Tree.assignments]) rfl rfl rfl
    rw [tree, statement, hcolons]
    rfl

/-! ## What is read next -/

/-- One more part of the operands of two readings keeps what one has more. -/
theorem gains_add {m : Nat} {t u : Tree} (h : f.weight.Gains n f'.weight) (ha : t.assignments ≤ u.assignments)
    (hs : t.sunk + m ≤ u.sunk) : (f.add t).weight.Gains (n + m) (f'.add u).weight := by
  rw [weight_add, weight_add]
  exact h.add ha hs

/-- Whatever is read next, the heavier reading keeps what it has more. -/
theorem gains_read (h : f.weight.Gains n f'.weight) (x : Lexeme) : (f.read x).weight.Gains n (f'.read x).weight := by
  have hword : ∀ k, (f.add (.word k x.text)).weight.Gains n (f'.add (.word k x.text)).weight := fun k =>
    gains_add (m := 0) h le_rfl le_rfl
  unfold read
  split_ifs
  · exact h
  · cases hkind : x.kind with
    | logical =>
      dsimp only
      rw [weight_joinLogical, weight_joinLogical]
      exact h.joinLogical _
    | assign =>
      dsimp only
      rw [weight_assign, weight_assign]
      exact h.restart 0 1
    | question =>
      dsimp only
      rw [weight_ask, weight_ask]
      exact h.restart 1 0
    | condColon =>
      dsimp only
      rw [weight_answer, weight_answer]
      exact h.restart 0 0
    | comma =>
      dsimp only
      rw [weight_comma, weight_comma]
      exact h.restart 0 0
    | semicolon =>
      dsimp only
      rw [weight_finish, weight_finish]
      exact h.restart 0 0
    | returnWord =>
      refine gains_add (m := 0) ?_ le_rfl le_rfl
      rw [weight_finish, weight_finish]
      exact h.restart 0 0
    | _ => exact hword _

/-- What a logical operator on the left will sink is sunk when the operator is read. -/
theorem sinks_read {x : Lexeme} (h : f.weight.Sinks (some x.kind) f'.weight) (hdir : x.inDirective = false) :
    (f.read x).weight.Gains 1 (f'.read x).weight := by
  by_cases hkind : x.kind = .logical
  · have hread : ∀ f : Frame, f.read x = f.joinLogical x.text := fun f => by
      rw [Frame.read, hdir, hkind]
      rfl
    rw [hkind] at h
    rw [hread, hread, weight_joinLogical, weight_joinLogical]
    exact h.joinLogical _
  · rcases h with h | ⟨hleft, -⟩
    · exact gains_read h x
    · exact absurd (Option.some.inj hleft) hkind

/-- A bracket is as heavy as what it holds, but for the assignments in one that is no plain parenthesis. -/
theorem bracketed_gains (h : f.weight.Gains n f'.weight) (shape : Bracket) :
    (bracketed shape f).assignments ≤ (bracketed shape f').assignments ∧
      (bracketed shape f).sunk + n ≤ (bracketed shape f').sunk := by
  unfold bracketed
  split_ifs
  · exact ⟨h.assignments, h.sunk⟩
  · exact ⟨le_rfl, h.sunk⟩

end Frame

namespace Forest

open CodeGroom.Frame

variable {F G run : Forest} {f f' : Frame} {n : Nat}

/-- Whatever is read in front, the heavier reading keeps what it has more. -/
theorem gains_reads (h : f.weight.Gains n f'.weight) (F : Forest) : (F.reads f).weight.Gains n (F.reads f').weight := by
  induction F with
  | nil => exact h
  | leaf e rest ih => exact gains_read ih e.lexeme
  | group o inner c rest _ ih => exact gains_add (m := 0) ih le_rfl le_rfl

/-- Something read in front of what has the weight `w` weighs `u`, and by itself it weighs `v`: that is no less as one tree. If
it holds an assignment, the tree sinks that below whatever its place lies below and makes the operand heavier. -/
structure ReadAs (holds : Bool) (w v u : Weight) : Prop where
  gains : u.Gains (if holds then w.aboveOperand else 0) (w.add v.assignments v.sunk)
  alone : v.aboveOperand = 0
  operand : holds = true → u.operand < w.operand + v.assignments
  conjunction : holds = true → u.conjunction < w.conjunction + v.assignments

/-- One more part is read so. -/
theorem ReadAs.add {holds : Bool} {w v u : Weight} (h : ReadAs holds w v u) (a s : Nat) :
    ReadAs holds w (v.add a s) (u.add a s) := by
  obtain ⟨hgains, halone, hoperand, hconjunction⟩ := h
  have hadd : w.add (v.add a s).assignments (v.add a s).sunk = (w.add v.assignments v.sunk).add a s := by
    simp only [Weight.add, halone, Nat.mul_add, Nat.zero_mul, Weight.mk.injEq, and_true]
    omega
  refine ⟨?_, halone, ?_, ?_⟩
  · rw [hadd]
    exact hgains.add (m := 0) le_rfl le_rfl
  · intro hh
    have := hoperand hh
    simp only [Weight.add]
    omega
  · intro hh
    have := hconjunction hh
    simp only [Weight.add]
    omega

/-- An assignment is read so, and then it holds one. -/
theorem ReadAs.assign {holds : Bool} {w v u : Weight} (h : ReadAs holds w v u) :
    ReadAs true w (v.restart 0 1) (u.restart 0 1) := by
  obtain ⟨h1, h2, h3, h4, h5, h6⟩ := h.gains
  simp only [Weight.add] at h1 h2
  refine ⟨⟨?_, ?_, ?_, ?_, ?_, ?_⟩, rfl, fun _ => ?_, fun _ => ?_⟩ <;> simp only [Weight.restart, Weight.add, if_true, Nat.mul_add]
    <;> omega

/-- A plain run is read so. -/
theorem readAs_plain (h : run.IsPlain) (hdir : run.OutsideDirectives) (f : Frame) :
    ReadAs run.hasAssign f.weight (run.reads {}).weight (run.reads f).weight := by
  induction run with
  | nil =>
    refine ⟨?_, rfl, by simp [hasAssign], by simp [hasAssign]⟩
    constructor <;> simp only [hasAssign, reads, Weight.add, Bool.false_eq_true, if_false] <;> omega
  | leaf e rest ih =>
    obtain ⟨hends, hsemi, hret, hrest⟩ := h
    obtain ⟨he, hdir⟩ := outsideDirectives_leaf.1 hdir
    have hrest := ih hrest hdir
    by_cases hassign : e.kind = .assign
    · have hread : ∀ f : Frame, (f.read e.lexeme).weight = f.weight.restart 0 1 := fun f => by
        have he' : e.lexeme.inDirective = false := he
        have hkind : e.lexeme.kind = .assign := hassign
        rw [← weight_assign e.lexeme.text, Frame.read, he', hkind]
        rfl
      rw [reads, reads, hread, hread, hasAssign, hassign]
      exact hrest.assign
    · have hholds : (leaf e rest).hasAssign = rest.hasAssign := by simp [hasAssign, hassign]
      rw [hholds, reads, reads]
      rcases read_plain hends hsemi hret hassign with hread | hread
      · rw [hread, hread]
        exact hrest
      · rw [hread, hread, weight_add, weight_add]
        exact hrest.add _ _
  | group o inner c rest _ ih =>
    obtain ⟨-, -, -, hdir⟩ := outsideDirectives_group.1 hdir
    rw [reads, reads, weight_add, weight_add, hasAssign]
    exact (ih h.2 hdir).add _ _

end Forest

/-! ## What lies around -/

namespace Reading

/-- How far the assignments are sunk in all that has been read. -/
def sunk (r : Reading) : Nat := (r.trees.map Tree.sunk).sum

/-- One reading is in no bracket lighter than another one, and its assignments are sunk by at least `n` more. -/
structure Gains (n : Nat) (r r' : Reading) : Prop where
  top : r.top.weight.Gains 0 r'.top.weight
  outer : List.Forall₂ (fun f f' : Frame => f.weight.Gains 0 f'.weight) r.outer r'.outer
  sunk : r.sunk + n ≤ r'.sunk

variable {r r' : Reading} {n : Nat}

/-- What is sunk in a reading is sunk in its brackets. -/
theorem sunk_cons (f : Frame) (outer : List Frame) :
    (Reading.mk f outer).sunk = f.weight.sunk + (outer.map (·.weight.sunk)).sum := by
  simp only [sunk, trees, List.map_cons, List.sum_cons, List.map_map]
  rfl

/-- What the innermost bracket has more the reading has more. -/
theorem gains_top {f f' : Frame} (h : f.weight.Gains n f'.weight) (outer : List Frame) : Gains n ⟨f, outer⟩ ⟨f', outer⟩ := by
  refine ⟨h.mono (Nat.zero_le _), List.forall₂_same.2 fun f _ => .refl _, ?_⟩
  have hsunk := h.sunk
  rw [sunk_cons, sunk_cons]
  omega

/-- A closing bracket starts a new bracket in both readings, for they are read from the end. -/
theorem Gains.closing (h : Gains n r r') : Gains n ⟨{}, r.top :: r.outer⟩ ⟨{}, r'.top :: r'.outer⟩ := by
  refine ⟨.refl _, .cons h.top h.outer, ?_⟩
  have hsunk := h.sunk
  rw [sunk_cons, sunk_cons] at hsunk ⊢
  simp only [List.map_cons, List.sum_cons]
  omega

/-- An opening bracket ends the innermost bracket of both readings and keeps what one has more. -/
theorem Gains.opening (h : Gains n r r') (b : Bracket) :
    Gains n ⟨(r.outer.headD {}).add (r.top.bracketed b), r.outer.tail⟩
      ⟨(r'.outer.headD {}).add (r'.top.bracketed b), r'.outer.tail⟩ := by
  obtain ⟨top, outer⟩ := r
  obtain ⟨top', outer'⟩ := r'
  obtain ⟨htop, houter, hsunk⟩ := h
  dsimp only at htop houter ⊢
  have hassignments := (Frame.bracketed_gains htop b).1
  have hbracketed : ∀ f : Frame, (f.bracketed b).sunk = f.weight.sunk := fun f => by
    unfold Frame.bracketed
    split_ifs <;> rfl
  cases houter with
  | nil =>
    refine ⟨Frame.gains_add (m := 0) (.refl _) hassignments (Frame.bracketed_gains htop b).2, .nil, ?_⟩
    rw [sunk_cons, sunk_cons] at hsunk ⊢
    have hempty : ({} : Frame).weight.sunk = 0 ∧ ({} : Frame).weight.aboveOperand = 0 := ⟨rfl, rfl⟩
    simp only [List.headD, List.tail_nil, Frame.weight_add, Weight.add, hbracketed, hempty]
    omega
  | @cons f f' fs fs' hf hfs =>
    refine ⟨Frame.gains_add (m := 0) hf hassignments (Frame.bracketed_gains htop b).2, hfs, ?_⟩
    have hmul := Nat.mul_le_mul hf.aboveOperand hassignments
    rw [sunk_cons, sunk_cons] at hsunk ⊢
    simp only [List.map_cons, List.sum_cons] at hsunk
    simp only [List.headD, List.tail_cons, Frame.weight_add, Weight.add, hbracketed]
    omega

/-- A lexeme in the innermost bracket keeps what one reading has more. -/
theorem Gains.inside (h : Gains n r r') (x : Lexeme) :
    Gains n { r with top := r.top.read x } { r' with top := r'.top.read x } := by
  refine ⟨Frame.gains_read h.top x, h.outer, ?_⟩
  have hsunk := h.sunk
  have hmore : r.top.weight.Gains (r'.top.weight.sunk - r.top.weight.sunk) r'.top.weight := by
    have htop := h.top
    exact { htop with sunk := by have := htop.sunk; omega }
  have htop := h.top.sunk
  have hread := (Frame.gains_read hmore x).sunk
  rw [sunk_cons, sunk_cons] at hsunk ⊢
  omega

/-- Whatever is read next, the heavier reading keeps what it has more. -/
theorem Gains.read (h : Gains n r r') (x : Lexeme) : Gains n (r.read x) (r'.read x) := by
  unfold Reading.read
  split_ifs
  · exact h
  · cases hkind : x.kind with
    | closing b => exact h.closing
    | opening b => exact h.opening b
    | _ => exact h.inside x

/-- Whatever lexemes are read next, the heavier reading keeps what it has more. -/
theorem Gains.ofLexemes (h : Gains n r r') (xs : List Lexeme) : Gains n (Reading.ofLexemes xs r) (Reading.ofLexemes xs r') := by
  induction xs with
  | nil => exact h
  | cons x xs ih => exact ih.read x

end Reading

end CodeGroom
