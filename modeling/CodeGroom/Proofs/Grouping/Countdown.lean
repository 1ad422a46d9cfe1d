import CodeGroom.Grouping.Countdown

/-!
# Countdowns are long enough

How far a loop has to go is told by three numbers that count one after another: the first may not grow, the second only when the
first falls, the third only when one of the others falls. The countdown of a scan outlasts every loop that comes nearer to its end
in this sense with each step, as long as none of the three is beyond the number that it is told.
-/

namespace CodeGroom

/-- How far a loop has to go: how many old lexemes are ahead, how many opening parentheses that were inserted are ahead of the first
of these, and how many lexemes are ahead at all. -/
structure Distance where
  old : Nat
  opened : Nat
  all : Nat

namespace Distance

/-- Nearer to the end: by the first number that differs. -/
def Less (m m' : Distance) : Prop :=
  m.old < m'.old ∨ m.old = m'.old ∧ (m.opened < m'.opened ∨ m.opened = m'.opened ∧ m.all < m'.all)

/-- None of the numbers is beyond `n`. -/
def Within (n : Nat) (m : Distance) : Prop := m.old ≤ n ∧ m.opened ≤ n ∧ m.all ≤ n

/-- Where nothing was inserted ahead, fewer lexemes are nearer. -/
theorem less_of_length {n n' : Nat} (h : n < n') : Less ⟨0, 0, n⟩ ⟨0, 0, n'⟩ := .inr ⟨rfl, .inr ⟨rfl, h⟩⟩

theorem Less.trans {m m' m'' : Distance} (h : m.Less m') (h' : m'.Less m'') : m.Less m'' := by
  unfold Less at h h' ⊢
  omega

end Distance

namespace Countdown

variable {t : Countdown} {m m' : Distance} {a b : Nat}

/-- A loop that has so far to go comes to its end before the countdown does: there is a step, and behind it the countdown outlasts
whatever is nearer. -/
def Outlasts : Countdown → Distance → Prop
  | spent, _ => False
  | step rest, m => ∀ (n : Nat) (m' : Distance), m'.Within n → m'.Less m → Outlasts (rest n) m'

/-- There is a step to take. -/
theorem Outlasts.exists_step (h : t.Outlasts m) : ∃ rest, t = step rest ∧
    ∀ (n : Nat) (m' : Distance), m'.Within n → m'.Less m → (rest n).Outlasts m' := by
  cases t with
  | spent => exact h.elim
  | step rest => exact ⟨rest, rfl, h⟩

/-- What outlasts a way outlasts every shorter one. -/
theorem Outlasts.mono (h : t.Outlasts m) (hm : m'.Less m) : t.Outlasts m' := by
  cases t with
  | spent => exact h
  | step rest => exact fun n m'' hn hm'' => h n m'' hn (hm''.trans hm)

/-- Single steps count down the third number. -/
theorem outlasts_steps (h : ∀ m, m.Less ⟨a, b, 0⟩ → t.Outlasts m) (c : Nat) (hm : m.Less ⟨a, b, c⟩) :
    (times (inFront 0) c t).Outlasts m := by
  induction c generalizing m with
  | zero => exact h m hm
  | succ c ih =>
    intro n m' _ hm'
    refine ih ?_
    unfold Distance.Less at hm hm' ⊢
    dsimp only at hm ⊢
    omega

/-- Countdowns of order one count down the second number, for the third one is as large as it can be behind their first steps. -/
theorem outlasts_rounds (h : ∀ m, m.Less ⟨a, 0, 0⟩ → t.Outlasts m) (b : Nat) (hm : m.Less ⟨a, b, 0⟩) :
    (times (inFront 1) b t).Outlasts m := by
  induction b generalizing m with
  | zero => exact h m hm
  | succ b ih =>
    intro n m' hn hm'
    refine outlasts_steps (fun _ => ih) (n + 1) ?_
    unfold Distance.Within at hn
    unfold Distance.Less at hm hm' ⊢
    dsimp only at hm ⊢
    omega

/-- Countdowns of order two count down the first number. -/
theorem outlasts_laps (a : Nat) (hm : m.Less ⟨a, 0, 0⟩) : (times (inFront 2) a spent).Outlasts m := by
  induction a generalizing m with
  | zero =>
    unfold Distance.Less at hm
    dsimp only at hm
    omega
  | succ a ih =>
    intro n m' hn hm'
    refine outlasts_rounds (fun _ => ih) (n + 1) ?_
    unfold Distance.Within at hn
    unfold Distance.Less at hm hm' ⊢
    dsimp only at hm ⊢
    omega

/-- The countdown of a scan outlasts everything. -/
theorem outlasts_full (m : Distance) : full.Outlasts m := by
  intro n m' hn _
  refine outlasts_laps (n + 1) ?_
  unfold Distance.Within at hn
  unfold Distance.Less
  dsimp only
  omega

end Countdown

end CodeGroom
