import CodeGroom.Proofs.Bracket.Forest
import Mathlib.Data.List.Chain

/-!
# Level strands

In a level strand depths change at brackets, directives and line breaks only: two neighbours that are none of these are equally
deep, and so are the two ends of whatever holds none of these.
-/

namespace CodeGroom

/-- Whether the depth behind a lexeme of the kind may be another one than in front of it. -/
def Kind.turns (k : Kind) : Bool := k.isBracket || k = .directive || k = .newline

namespace Lexeme

/-- Two neighbours are equally deep, unless depths may change at one of them. -/
def LevelWith (x y : Lexeme) : Prop := x.kind.turns = false → y.kind.turns = false → x.depth = y.depth

/-- Along some lexemes depths change only where they may. -/
def Level (xs : List Lexeme) : Prop := xs.IsChain LevelWith

variable {xs ys : List Lexeme} {x y z : Lexeme}

theorem levelWith_of_turns (h : x.kind.turns = true) (y : Lexeme) : x.LevelWith y ∧ y.LevelWith x := by
  refine ⟨fun h' => ?_, fun _ h' => ?_⟩ <;>
  · rw [h] at h'
    cases h'

theorem LevelWith.symm (h : x.LevelWith y) : y.LevelWith x := fun hy hx => (h hx hy).symm

/-- A lexeme at which depths may change parts what stands in front of it from what stands behind it. -/
theorem level_turning (h : x.kind.turns = true) : Level (xs ++ x :: ys) ↔ Level xs ∧ Level ys := by
  refine ⟨fun hlevel => ?_, fun ⟨hxs, hys⟩ => ?_⟩
  · obtain ⟨hxs, hrest, -⟩ := List.isChain_append.1 hlevel
    exact ⟨hxs, (List.isChain_cons.1 hrest).2⟩
  · refine List.isChain_append.2 ⟨hxs, List.isChain_cons.2 ⟨fun y _ => (levelWith_of_turns h y).1, hys⟩, ?_⟩
    intro y _ z hz
    obtain rfl := Option.some.inj hz
    exact (levelWith_of_turns h y).2

theorem Level.insert (h : Level (xs ++ ys)) (hx : x.kind.turns = true) : Level (xs ++ x :: ys) := by
  obtain ⟨hxs, hys, -⟩ := List.isChain_append.1 h
  exact (level_turning hx).2 ⟨hxs, hys⟩

/-- A change that leaves kinds, and depths as far as they agree, keeps lexemes level. -/
theorem Level.map {f : Lexeme → Lexeme} (h : Level xs) (hkind : ∀ x, (f x).kind = x.kind)
    (hdepth : ∀ x y, x.depth = y.depth → (f x).depth = (f y).depth) : Level (xs.map f) := by
  refine List.isChain_map_of_isChain f (fun x y hxy hx hy => ?_) h
  rw [hkind] at hx hy
  exact hdepth x y (hxy hx hy)

theorem Level.reverse (h : Level xs) : Level xs.reverse :=
  List.isChain_reverse.2 (h.imp fun _ _ => LevelWith.symm)

/-- What any two neighbours share that satisfy a condition, the two ends of lexemes share that all satisfy it. -/
theorem ends_eq {R : Lexeme → Lexeme → Prop} {p : Lexeme → Prop} {f : Lexeme → Int}
    (hR : ∀ x y, R x y → p x → p y → f x = f y) (h : xs.IsChain R) (hxs : ∀ x ∈ xs, p x) (hx : xs.head? = some x)
    (hy : xs.getLast? = some y) : f x = f y := by
  induction xs generalizing x with
  | nil => cases hx
  | cons z xs ih =>
    obtain rfl := Option.some.inj hx
    cases xs with
    | nil =>
      obtain rfl := Option.some.inj hy
      rfl
    | cons w ws =>
      obtain ⟨hzw, hws⟩ := List.isChain_cons_cons.1 h
      rw [hR z w hzw (hxs z List.mem_cons_self) (hxs w (by simp))]
      exact ih hws (fun x hx => hxs x (List.mem_cons_of_mem _ hx)) rfl (by simpa using hy)

end Lexeme

namespace Strand

/-- The depths of a strand change only where they may. -/
def Level (s : Strand) : Prop := Lexeme.Level s.lexemes

variable {s : Strand} {es : List Entry}

/-- Columns play no part in depths. -/
theorem Lists.level_iff (h : s.Lists es) : s.Level ↔ Lexeme.Level (Entry.lexemes es) := by
  have hbare : Entry.lexemes es = s.lexemes.map Lexeme.bare := by
    rw [← h.entries_eq, BracketAux.lexemes_entries]
  rw [Level, hbare, Lexeme.Level, Lexeme.Level, List.isChain_map]
  exact Iff.rfl

/-- What any two neighbours share that satisfy a condition, a lexeme shares with another one if it holds from the one to the other. -/
theorem ends_eq {R : Lexeme → Lexeme → Prop} {c : Lexeme → Prop} {f : Lexeme → Int} {p m q : List Nat} {i j : Nat}
    (hR : ∀ x y, R x y → c x → c y → f x = f y) (h : s.lexemes.IsChain R) (hs : s.Linked (p ++ (m ++ q)))
    (hm : ∀ x ∈ m, c (s.lexeme (some x))) (hi : m.head? = some i) (hj : m.getLast? = some j) :
    f (s.lexeme (some i)) = f (s.lexeme (some j)) := by
  have hmiddle : (m.map fun i => s.lexeme (some i)).IsChain R := by
    rw [lexemes, hs.order_eq, List.map_append, List.map_append] at h
    exact (List.isChain_append.1 (List.isChain_append.1 h).2.1).1
  refine Lexeme.ends_eq hR hmiddle ?_ (by rw [List.head?_map, hi]; rfl) (by rw [List.getLast?_map, hj]; rfl)
  intro x hx
  obtain ⟨k, hk, rfl⟩ := List.mem_map.1 hx
  exact hm k hk

/-- Where no depth may change from one lexeme to another one, they are equally deep. -/
theorem Level.depth_eq {p m q : List Nat} {i j : Nat} (h : s.Level) (hs : s.Linked (p ++ (m ++ q)))
    (hm : ∀ x ∈ m, (s.lexeme (some x)).kind.turns = false) (hi : m.head? = some i) (hj : m.getLast? = some j) :
    (s.lexeme (some i)).depth = (s.lexeme (some j)).depth :=
  ends_eq (c := fun x => x.kind.turns = false) (fun _ _ hxy hx hy => hxy hx hy) h hs hm hi hj

end Strand

end CodeGroom
