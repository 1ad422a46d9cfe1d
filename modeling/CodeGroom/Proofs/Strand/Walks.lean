import CodeGroom.Proofs.Strand.Lines

/-!
# Walks forward and back

A walk goes on by steps, and each step decides from the lexeme that it leaves how far it may see. In a strand that is well linked
the lists that `next` and `prev` search are the trails of these steps. Whether a walk leads from one lexeme to another one is then
a matter of what lies between the two, read in either direction: walks forward and walks back are inverse to each other. On one
side of the directives a walk from outside stays outside, and a walk from inside stays in its unbroken run.
-/

namespace CodeGroom.Strand

variable {s : Strand} {link : Nat → Option Nat} {path trail : Nat → List Nat} {step : Nat → Option Nat → Prop}
  {f : Nat → Bool} {skip : Skip} {scope : Scope} {p q : List Nat} {i j k : Nat} {o o' : Option Nat}

/-- A search by steps: a step is taken from each lexeme that is passed over, until one comes that is not or there is none. -/
inductive Search (step : Nat → Option Nat → Prop) (passed : Nat → Bool) : Nat → Option Nat → Prop
  | ends {i : Nat} : step i none → Search step passed i none
  | finds {i j : Nat} : step i (some j) → passed j = false → Search step passed i (some j)
  | goesOn {i j : Nat} {o : Option Nat} : step i (some j) → passed j = true → Search step passed j o → Search step passed i o

/-- One step of a walk along links. On one side of the directives it goes from inside a directive to the linked lexeme if that is
in a directive, too, and from outside past all lexemes of directives. -/
inductive Step (s : Strand) (link : Nat → Option Nat) : Scope → Nat → Option Nat → Prop
  | anywhere (i : Nat) : Step s link .everything i (link i)
  | inside {i : Nat} : s.inDirective i = true → Step s link .sameSide i ((link i).filter s.inDirective)
  | outside {i : Nat} {o : Option Nat} : s.inDirective i = false → Search (fun j o => o = link j) s.inDirective i o →
      Step s link .sameSide i o

/-- Whether a walk passes over lexeme `i`. -/
def skips (s : Strand) (skip : Skip) (i : Nat) : Bool := skip.passes (s.lexeme (some i))

section Steps

/-! A walk is a search by steps. -/

/-- Steps that lead to one place at most make a search that does. -/
theorem Search.unique (hstep : ∀ {i o o'}, step i o → step i o' → o = o') (h : Search step f i o) (h' : Search step f i o') :
    o = o' := by
  induction h with
  | ends hi =>
    cases h' with
    | ends _ => rfl
    | finds hi' _ => exact hstep hi hi'
    | goesOn hi' _ _ => cases hstep hi hi'
  | finds hi hj =>
    cases h' with
    | ends hi' => exact hstep hi hi'
    | finds hi' _ => exact hstep hi hi'
    | goesOn hi' hj' _ =>
      cases hstep hi hi'
      exact absurd (hj.symm.trans hj') Bool.false_ne_true
  | goesOn hi hj _ ih =>
    cases h' with
    | ends hi' => cases hstep hi hi'
    | finds hi' hj' =>
      cases hstep hi hi'
      exact absurd (hj'.symm.trans hj) Bool.false_ne_true
    | goesOn hi' _ hrest =>
      cases hstep hi hi'
      exact ih hrest

theorem Step.unique (h : s.Step link scope i o) (h' : s.Step link scope i o') : o = o' := by
  cases h with
  | anywhere =>
    cases h'
    rfl
  | inside hi =>
    cases h' with
    | inside _ => rfl
    | outside hi' _ => exact absurd (hi'.symm.trans hi) Bool.false_ne_true
  | outside hi hsearch =>
    cases h' with
    | inside hi' => exact absurd (hi.symm.trans hi') Bool.false_ne_true
    | outside _ hsearch' => exact hsearch.unique (fun hj hj' => hj.trans hj'.symm) hsearch'

/-- Each step leads to the first lexeme of the trail, and the trail from there is the rest of it. -/
structure Trail (step : Nat → Option Nat → Prop) (trail : Nat → List Nat) : Prop where
  step_head : ∀ i, step i (trail i).head?
  tail : ∀ {i k r}, trail i = k :: r → trail k = r

namespace Trail

theorem behind_append (h : Trail step trail) (hi : trail i = p ++ k :: q) : trail k = q := by
  induction p generalizing i with
  | nil => exact h.tail hi
  | cons j p ih => exact ih (h.tail hi)

/-- A search finds the first lexeme of its trail that is not passed over. -/
theorem search (h : Trail step trail) (f : Nat → Bool) (i : Nat) : Search step f i ((trail i).find? (!f ·)) := by
  generalize ht : trail i = l
  have hhead := h.step_head i
  rw [ht] at hhead
  induction l generalizing i with
  | nil => exact .ends hhead
  | cons k r ih =>
    cases hk : f k with
    | false =>
      rw [List.find?_cons_of_pos (by simp [hk])]
      exact .finds hhead hk
    | true =>
      have htail := h.tail ht
      rw [List.find?_cons_of_neg (by simp [hk])]
      exact .goesOn hhead hk (ih k htail (htail ▸ h.step_head k))

/-- What a scope leaves of a path is the trail of the steps in that scope. -/
theorem restrict (h : Trail (fun j o => o = link j) path) (scope : Scope) :
    Trail (s.Step link scope) fun i => s.restrict scope (s.inDirective i) (path i) := by
  cases scope with
  | everything =>
    refine ⟨fun i => ?_, h.tail⟩
    rw [Strand.restrict, h.step_head i]
    exact .anywhere i
  | sameSide =>
    refine ⟨fun i => ?_, fun {i k r} hi => ?_⟩
    · cases hside : s.inDirective i with
      | true =>
        rw [Strand.restrict, List.head?_takeWhile, h.step_head i]
        exact .inside hside
      | false =>
        rw [Strand.restrict, List.head?_filter]
        exact .outside hside (h.search s.inDirective i)
    · cases hside : s.inDirective i with
      | true =>
        rw [hside, Strand.restrict] at hi
        cases hp : path i with
        | nil =>
          rw [hp] at hi
          cases hi
        | cons k' r' =>
          rw [hp, List.takeWhile_cons] at hi
          split_ifs at hi with hk
          obtain ⟨rfl, rfl⟩ := List.cons.inj hi
          rw [hk, Strand.restrict, h.tail hp]
      | false =>
        -- The lexemes `m` of directives are passed in one step, so the path from `k` begins behind them.
        rw [hside, Strand.restrict] at hi
        obtain ⟨m, r', hp, -, hk, rfl⟩ := List.filter_eq_cons_iff.1 hi
        rw [Bool.not_eq_true', eq_comm] at hk
        rw [← hk, Strand.restrict, h.behind_append hp]

/-- A search along a trail gives what it finds there and nothing else. -/
theorem find?_eq_iff (h : Trail (fun j o => o = link j) path) (scope : Scope) (f : Nat → Bool) (i : Nat) (o : Option Nat) :
    (s.restrict scope (s.inDirective i) (path i)).find? (!f ·) = o ↔ Search (s.Step link scope) f i o := by
  have hsearch := (h.restrict (s := s) scope).search f i
  exact ⟨fun ho => ho ▸ hsearch, fun ho => hsearch.unique (fun hi hi' => hi.unique hi') ho⟩

end Trail

theorem follow_none (n : Nat) : follow link n none = [] := by cases n <;> rfl

namespace WellLinked

theorem getElem?_eq_none (h : s.WellLinked) (hi : i ∉ s.order) : s.cells[i]? = none :=
  Array.getElem?_eq_none (Nat.not_lt.1 fun hlt => hi (h.mem_iff.2 hlt))

theorem after_eq_nil (h : s.WellLinked) (hi : i ∉ s.order) : s.after i = [] := by
  rw [after, nextOf, h.getElem?_eq_none hi, Option.bind_none, follow_none]

theorem before_eq_nil (h : s.WellLinked) (hi : i ∉ s.order) : s.before i = [] := by
  rw [before, prevOf, h.getElem?_eq_none hi, Option.bind_none, follow_none]

/-- The links forward lead along what is behind a lexeme. -/
theorem trail_after (h : s.WellLinked) : Trail (fun j o => o = s.nextOf j) s.after where
  step_head i := by
    by_cases hi : i ∈ s.order
    · obtain ⟨p, q, hl⟩ := h.exists_around hi
      rw [hl.after_eq, hl.nextOf_eq p i q rfl]
    · rw [h.after_eq_nil hi, nextOf, h.getElem?_eq_none hi]
      rfl
  tail {i k r} hk := by
    by_cases hi : i ∈ s.order
    · obtain ⟨p, q, hl⟩ := h.exists_around hi
      rw [hl.after_eq] at hk
      subst hk
      exact Linked.after_eq (p := p ++ [i]) (by simpa using hl)
    · rw [h.after_eq_nil hi] at hk
      cases hk

/-- The links back lead along what is in front of a lexeme. -/
theorem trail_before (h : s.WellLinked) : Trail (fun j o => o = s.prevOf j) s.before where
  step_head i := by
    by_cases hi : i ∈ s.order
    · obtain ⟨p, q, hl⟩ := h.exists_around hi
      rw [hl.before_eq, hl.prevOf_eq p i q rfl, List.head?_reverse]
    · rw [h.before_eq_nil hi, prevOf, h.getElem?_eq_none hi]
      rfl
  tail {i k r} hk := by
    by_cases hi : i ∈ s.order
    · obtain ⟨p, q, hl⟩ := h.exists_around hi
      rw [hl.before_eq, List.reverse_eq_cons_iff] at hk
      subst hk
      rw [Linked.before_eq (q := i :: q) (by simpa using hl), List.reverse_reverse]
    · rw [h.before_eq_nil hi] at hk
      cases hk

end WellLinked

end Steps

section Between

/-! What a walk leads to is a matter of what lies between. -/

/-- Whether a walk that started inside or outside of a directive goes on behind lexeme `k`. -/
def passesBy (s : Strand) (skip : Skip) (scope : Scope) (inside : Bool) (k : Nat) : Bool :=
  match scope, inside with
  | .everything, _ => s.skips skip k
  | .sameSide, true => s.inDirective k && s.skips skip k
  | .sameSide, false => s.inDirective k || s.skips skip k

/-- Lexeme `i` stands in front of lexeme `j`, on the same side if the scope asks for it, and nothing between them stops a walk. -/
def Adjoins (s : Strand) (skip : Skip) (scope : Scope) (i j : Nat) : Prop :=
  (scope = .sameSide → s.inDirective i = s.inDirective j) ∧
    ∃ p m q, s.order = p ++ i :: (m ++ j :: q) ∧ ∀ k ∈ m, s.passesBy skip scope (s.inDirective i) k = true

theorem passesBy_congr {a b : Bool} (h : scope = .sameSide → a = b) : s.passesBy skip scope a k = s.passesBy skip scope b k := by
  cases scope with
  | everything => rfl
  | sameSide => rw [h rfl]

theorem takeWhile_eq_append_cons_iff {l m : List Nat} {g : Nat → Bool} :
    (∃ r, l.takeWhile g = m ++ j :: r) ↔ (∀ k ∈ m, g k = true) ∧ g j = true ∧ ∃ q, l = m ++ j :: q := by
  constructor
  · rintro ⟨r, hr⟩
    have hall : ∀ k ∈ m ++ j :: r, g k = true := fun k hk => List.mem_takeWhile_imp (hr ▸ hk)
    refine ⟨fun k hk => hall k (by simp [hk]), hall j (by simp), r ++ l.dropWhile g, ?_⟩
    conv_lhs => rw [← List.takeWhile_append_dropWhile (p := g) (l := l), hr]
    simp
  · rintro ⟨hm, hj, q, rfl⟩
    exact ⟨q.takeWhile g, by rw [List.takeWhile_append_of_pos hm, List.takeWhile_cons_of_pos hj]⟩

/-- The first lexeme on a path that the scope leaves and that is not skipped: those in front of it do not stop the walk. -/
theorem find?_restrict_eq_some_iff {l : List Nat} {inside : Bool} :
    (s.restrict scope inside l).find? (!s.skips skip ·) = some j ↔
      s.skips skip j = false ∧ (scope = .sameSide → s.inDirective j = inside) ∧
        ∃ m q, l = m ++ j :: q ∧ ∀ k ∈ m, s.passesBy skip scope inside k = true := by
  cases scope with
  | everything => simp [restrict, passesBy, List.find?_eq_some_iff_append]
  | sameSide =>
    cases inside with
    | true =>
      have hcut : ∀ m, (∃ r, l.takeWhile s.inDirective = m ++ j :: r ∧ ∀ k ∈ m, s.skips skip k = true) ↔
          s.inDirective j = true ∧ ∃ q, l = m ++ j :: q ∧ ∀ k ∈ m, s.inDirective k = true ∧ s.skips skip k = true := fun m => by
        rw [exists_and_right, takeWhile_eq_append_cons_iff]
        grind
      simp only [restrict, passesBy, List.find?_eq_some_iff_append, Bool.not_not, Bool.not_eq_true', Bool.and_eq_true, hcut,
        exists_and_left, forall_const]
    | false =>
      simp [restrict, passesBy, List.find?_filter, List.find?_eq_some_iff_append, and_assoc, and_left_comm]

namespace WellLinked

/-- A lexeme behind another one, in the order. -/
theorem after_eq_iff (h : s.WellLinked) {m : List Nat} :
    s.after i = m ++ j :: q ↔ ∃ p, s.order = p ++ i :: (m ++ j :: q) := by
  constructor
  · intro hi
    have hmem : i ∈ s.order := by
      by_contra hnot
      rw [h.after_eq_nil hnot] at hi
      exact List.append_ne_nil_of_right_ne_nil m (List.cons_ne_nil j q) hi.symm
    obtain ⟨p, r, hl⟩ := h.exists_around hmem
    rw [hl.after_eq] at hi
    exact ⟨p, hi ▸ hl.order_eq⟩
  · rintro ⟨p, hsplit⟩
    have hl : s.Linked (p ++ i :: (m ++ j :: q)) := hsplit ▸ h
    exact hl.after_eq

/-- A lexeme in front of another one, in the order. -/
theorem before_eq_iff (h : s.WellLinked) {m : List Nat} :
    s.before j = m ++ i :: p ↔ ∃ q, s.order = p.reverse ++ i :: (m.reverse ++ j :: q) := by
  have hlist : ∀ q, p.reverse ++ i :: (m.reverse ++ j :: q) = (m ++ i :: p).reverse ++ j :: q := fun q => by simp
  constructor
  · intro hj
    have hmem : j ∈ s.order := by
      by_contra hnot
      rw [h.before_eq_nil hnot] at hj
      exact List.append_ne_nil_of_right_ne_nil m (List.cons_ne_nil i p) hj.symm
    obtain ⟨r, q, hl⟩ := h.exists_around hmem
    rw [hl.before_eq] at hj
    exact ⟨q, by rw [hlist, ← hj, List.reverse_reverse, hl.order_eq]⟩
  · rintro ⟨q, hsplit⟩
    have hl : s.Linked ((m ++ i :: p).reverse ++ j :: q) := by rwa [← hlist, ← hsplit]
    rw [hl.before_eq, List.reverse_reverse]

/-- A walk forward leads to what adjoins a lexeme behind it. -/
theorem next_eq_some_iff (h : s.WellLinked) :
    s.next skip scope (some i) = some j ↔ s.skips skip j = false ∧ s.Adjoins skip scope i j := by
  have hfind : s.next skip scope (some i) =
      (s.restrict scope (s.inDirective i) (s.after i)).find? (!s.skips skip ·) := rfl
  rw [hfind, find?_restrict_eq_some_iff]
  simp only [h.after_eq_iff]
  constructor
  · rintro ⟨hj, hside, m, q, ⟨p, hsplit⟩, hm⟩
    exact ⟨hj, fun hscope => (hside hscope).symm, p, m, q, hsplit, hm⟩
  · rintro ⟨hj, hside, p, m, q, hsplit, hm⟩
    exact ⟨hj, fun hscope => (hside hscope).symm, m, q, ⟨p, hsplit⟩, hm⟩

/-- A walk back leads to what adjoins a lexeme in front of it. -/
theorem prev_eq_some_iff (h : s.WellLinked) :
    s.prev skip scope (some j) = some i ↔ s.skips skip i = false ∧ s.Adjoins skip scope i j := by
  have hfind : s.prev skip scope (some j) =
      (s.restrict scope (s.inDirective j) (s.before j)).find? (!s.skips skip ·) := rfl
  rw [hfind, find?_restrict_eq_some_iff]
  simp only [h.before_eq_iff]
  -- The walk back passes what is between the two from `j` on, and asks the side of `j`.
  constructor
  · rintro ⟨hi, hside, m, p, ⟨q, hsplit⟩, hm⟩
    refine ⟨hi, hside, p.reverse, m.reverse, q, hsplit, fun k hk => ?_⟩
    rw [passesBy_congr hside]
    exact hm k (List.mem_reverse.1 hk)
  · rintro ⟨hi, hside, p, m, q, hsplit, hm⟩
    refine ⟨hi, hside, m.reverse, p.reverse, ⟨q, by simpa using hsplit⟩, fun k hk => ?_⟩
    rw [← passesBy_congr hside]
    exact hm k (List.mem_reverse.1 hk)

end WellLinked

end Between

section Sides

/-! Walks on one side of the directives. -/

/-- The lexemes that walks on one side of the directives lead to from lexeme `i`, one walk after another, forward or back and past
whatever each of them skips. -/
inductive Reaches (s : Strand) (i : Nat) : Nat → Prop
  | start : Reaches s i i
  | forward {j k : Nat} (skip : Skip) : Reaches s i j → s.next skip .sameSide (some j) = some k → Reaches s i k
  | back {j k : Nat} (skip : Skip) : Reaches s i j → s.prev skip .sameSide (some j) = some k → Reaches s i k

/-- An unbroken run of lexemes of directives, in the order between lexemes that belong to none. -/
structure Run (s : Strand) (p m q : List Nat) : Prop where
  order_eq : s.order = p ++ (m ++ q)
  inside : ∀ k ∈ m, s.inDirective k = true
  front : ∀ k, p.getLast? = some k → s.inDirective k = false
  behind : ∀ k, q.head? = some k → s.inDirective k = false

/-- What holds of a lexeme and goes over to whatever a walk from there may see holds of all that is reached. -/
theorem Reaches.invariant {c : Nat → Prop} (h : s.Reaches i j) (hi : c i)
    (hstep : ∀ j k, c j → k ∈ s.ahead .sameSide (some j) ∨ k ∈ s.behind .sameSide (some j) → c k) : c j := by
  induction h with
  | start => exact hi
  | forward skip _ hk ih => exact hstep _ _ ih (.inl (List.mem_of_find?_eq_some hk))
  | back skip _ hk ih => exact hstep _ _ ih (.inr (List.mem_of_find?_eq_some hk))

/-- From outside of directives walks lead outside. -/
theorem Reaches.outside (h : s.Reaches i j) (hi : s.inDirective i = false) : s.inDirective j = false := by
  refine h.invariant (c := fun j => s.inDirective j = false) hi fun j k hj hk => ?_
  rw [ahead, Strand.behind, hj, restrict, restrict, List.mem_filter, List.mem_filter, ← or_and_right, Bool.not_eq_true'] at hk
  exact hk.2

theorem takeWhile_append_eq {l r : List Nat} {g : Nat → Bool} (hl : ∀ k ∈ l, g k = true)
    (hr : ∀ k, r.head? = some k → g k = false) : (l ++ r).takeWhile g = l := by
  rw [List.takeWhile_append_of_pos hl]
  cases r with
  | nil => rw [List.takeWhile_nil, List.append_nil]
  | cons k r => rw [List.takeWhile_cons_of_neg (by simp [hr k rfl]), List.append_nil]

namespace Run

variable {m u v : List Nat}

theorem linked (h : s.Run p (u ++ i :: v) q) (hs : s.WellLinked) : s.Linked ((p ++ u) ++ i :: (v ++ q)) := by
  have horder : s.order = (p ++ u) ++ i :: (v ++ q) := by simp [h.order_eq]
  exact horder ▸ hs

/-- Ahead of a lexeme of a run is the rest of the run. -/
theorem ahead_eq (h : s.Run p (u ++ i :: v) q) (hs : s.WellLinked) : s.ahead .sameSide (some i) = v := by
  rw [ahead, h.inside i (by simp), restrict, (h.linked hs).after_eq]
  exact takeWhile_append_eq (fun k hk => h.inside k (by simp [hk])) h.behind

/-- Behind a lexeme of a run is the run up to it. -/
theorem behind_eq (h : s.Run p (u ++ i :: v) q) (hs : s.WellLinked) : s.behind .sameSide (some i) = u.reverse := by
  rw [Strand.behind, h.inside i (by simp), restrict, (h.linked hs).before_eq, List.reverse_append]
  refine takeWhile_append_eq (fun k hk => h.inside k ?_) fun k hk => h.front k (by rwa [List.head?_reverse] at hk)
  simp [List.mem_reverse.1 hk]

/-- From a lexeme of a run walks lead to lexemes of the run. -/
theorem mem_of_reaches (h : s.Run p m q) (hs : s.WellLinked) (hi : i ∈ m) (hij : s.Reaches i j) : j ∈ m := by
  refine hij.invariant (c := (· ∈ m)) hi fun j k hj hk => ?_
  obtain ⟨u, v, rfl⟩ := List.append_of_mem hj
  rw [h.ahead_eq hs, h.behind_eq hs, List.mem_reverse] at hk
  rcases hk with hk | hk
  · exact List.mem_append_right _ (List.mem_cons_of_mem _ hk)
  · exact List.mem_append_left _ hk

end Run

/-- What stands at the front of a list and passes a test, as far as that goes. -/
theorem exists_longest_front (g : Nat → Bool) (l : List Nat) :
    ∃ u v, l = u ++ v ∧ (∀ k ∈ u, g k = true) ∧ ∀ k, v.head? = some k → g k = false := by
  refine ⟨l.takeWhile g, l.dropWhile g, List.takeWhile_append_dropWhile.symm, fun k hk => List.mem_takeWhile_imp hk, ?_⟩
  intro k hk
  have hnot := List.head?_dropWhile_not g l
  rwa [hk] at hnot

/-- Every lexeme of a directive is in a run. -/
theorem exists_run (hi : i ∈ s.order) (hside : s.inDirective i = true) : ∃ p m q, s.Run p m q ∧ i ∈ m := by
  obtain ⟨p, q, hsplit⟩ := List.append_of_mem hi
  obtain ⟨u, p', hp, hu, hp'⟩ := exists_longest_front s.inDirective p.reverse
  obtain ⟨v, q', rfl, hv, hq'⟩ := exists_longest_front s.inDirective q
  rw [List.reverse_eq_iff, List.reverse_append] at hp
  refine ⟨p'.reverse, u.reverse ++ i :: v, q', ⟨by simp [hsplit, hp], fun k hk => ?_, fun k hk => ?_, hq'⟩, by simp⟩
  · rcases List.mem_append.1 hk with hk | hk
    · exact hu k (List.mem_reverse.1 hk)
    · rcases List.mem_cons.1 hk with rfl | hk
      · exact hside
      · exact hv k hk
  · rw [List.getLast?_reverse] at hk
    exact hp' k hk

/-- What belongs to a directive is in the strand. -/
theorem WellLinked.mem_of_inDirective (h : s.WellLinked) (hside : s.inDirective i = true) : i ∈ s.order := by
  by_contra hnot
  rw [inDirective, lexeme, Option.bind_some, h.getElem?_eq_none hnot] at hside
  cases hside

end Sides

/-- In a well-linked strand a walk is a search by single steps, each of which decides anew how far it may see. In both scopes and
whatever they skip, walks forward and walks back are inverse to each other. On one side of the directives, walks from outside stay
outside, and walks from inside of a directive stay in its unbroken run. -/
theorem WellLinked.walks_inverse (h : s.WellLinked) :
    (∀ skip scope i o,
      (s.next skip scope (some i) = o ↔ Search (s.Step s.nextOf scope) (s.skips skip) i o) ∧
        (s.prev skip scope (some i) = o ↔ Search (s.Step s.prevOf scope) (s.skips skip) i o)) ∧
    (∀ skip scope i j, s.skips skip i = false → s.skips skip j = false →
      (s.next skip scope (some i) = some j ↔ s.prev skip scope (some j) = some i)) ∧
    (∀ i j, s.Reaches i j → s.inDirective i = false → s.inDirective j = false) ∧
    ∀ i, s.inDirective i = true → ∃ p m q, s.Run p m q ∧ i ∈ m ∧ ∀ j, s.Reaches i j → j ∈ m := by
  refine ⟨fun skip scope i o => ⟨?_, ?_⟩, fun skip scope i j hi hj => ?_, fun i j hij hi => hij.outside hi, fun i hi => ?_⟩
  · exact h.trail_after.find?_eq_iff scope (s.skips skip) i o
  · exact h.trail_before.find?_eq_iff scope (s.skips skip) i o
  · -- Neither end is skipped, so both walks ask only for what is between them.
    rw [h.next_eq_some_iff, h.prev_eq_some_iff, hi, hj]
  · obtain ⟨p, m, q, hrun, hmem⟩ := exists_run (h.mem_of_inDirective hi) hi
    exact ⟨p, m, q, hrun, hmem, fun j hij => hrun.mem_of_reaches h hmem hij⟩

namespace WalksAux

/-- A lexeme of a directive. -/
def directivePart (k : Kind) (t : Text) : Lexeme := { kind := k, text := t, marks := { inDirective := true } }

/-- `a` and a comment, a directive of two lines with a comment in it, and `b` on the line behind it. -/
def aroundDirective : Strand := ofLexemes "c"
  [{ kind := .word, text := ['a'] }, { kind := .comment, text := ['/', '*', '*', '/'] }, directivePart .directive ['#', 'x'],
    directivePart .newline ['\n'], directivePart .comment ['/', '/'], directivePart .directive ['y'],
    { kind := .newline, text := ['\n'] }, { kind := .word, text := ['b'] }]

end WalksAux

open WalksAux in
/-- Past layout and the directive `a` and `b` are neighbours both ways; in all that there is, `a` and `#x` are. -/
theorem walks_inverse_aroundDirective :
    aroundDirective.WellLinked ∧ aroundDirective.skips .layout 0 = false ∧ aroundDirective.skips .layout 7 = false ∧
      aroundDirective.prev .layout .sameSide (some 7) = some 0 ∧ aroundDirective.prev .layout .everything (some 2) = some 0 ∧
      Search (aroundDirective.Step aroundDirective.nextOf .sameSide) (aroundDirective.skips .layout) 0 (some 7) ∧
      (∀ j, aroundDirective.Reaches 0 j → aroundDirective.inDirective j = false) ∧
      ∃ p m q, aroundDirective.Run p m q ∧ 2 ∈ m ∧ ∀ j, aroundDirective.Reaches 2 j → j ∈ m := by
  have hlinked : aroundDirective.WellLinked := wellLinked_ofLexemes _ _
  obtain ⟨hsteps, hinverse, houtside, hrun⟩ := hlinked.walks_inverse
  have hnext : aroundDirective.next .layout .sameSide (some 0) = some 7 := by decide
  refine ⟨hlinked, by decide, by decide, ?_, ?_, ?_, fun j hj => houtside 0 j hj (by decide), hrun 2 (by decide)⟩
  · exact (hinverse .layout .sameSide 0 7 (by decide) (by decide)).1 hnext
  · exact (hinverse .layout .everything 0 2 (by decide) (by decide)).1 (by decide)
  · exact (hsteps .layout .sameSide 0 (some 7)).1.1 hnext

end CodeGroom.Strand
