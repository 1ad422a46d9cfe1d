/-!
# Countdowns

A scan meets what it has inserted, so how many steps it takes is not known when it starts. A countdown bounds it all the same: at
each step it is told a number, and how many steps are left may depend on that number, but sooner or later it is spent.
-/

namespace CodeGroom

/-- A countdown is spent, or there is a step to take, and behind it another countdown for each number that it may be told there. -/
inductive Countdown where
  | spent
  | step (rest : Nat → Countdown)

namespace Countdown

/-- Does something to a countdown so many times. -/
def times (f : Countdown → Countdown) : Nat → Countdown → Countdown
  | 0, t => t
  | n + 1, t => f (times f n t)

/-- A countdown of some order in front of another one: a single step, or a step and then, as the number told there says, many
countdowns of the order below. -/
def inFront : Nat → Countdown → Countdown
  | 0, t => .step fun _ => t
  | k + 1, t => .step fun n => times (inFront k) (n + 1) t

/-- The countdown of a scan or of a pass, which are told the number of lexemes at each step. -/
def full : Countdown := inFront 3 spent

end Countdown

end CodeGroom
