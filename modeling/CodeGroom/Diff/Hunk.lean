import CodeGroom.Diff.Matching

/-!
# Changes and hunks

From the blocks that two versions have in common follow the changes between them. Changes that lie close together are shown in
one hunk, with a few unchanged lines around them.
-/

namespace CodeGroom.Diff

/-- A range of old lines and the range of new lines in its place; `same` says that they are equal. -/
structure Change where
  same : Bool
  oldStart : Nat
  oldStop : Nat
  newStart : Nat
  newStop : Nat
deriving DecidableEq, Repr

/-- The number of unchanged lines shown around a change. -/
def context : Nat := 3

/-- What lies between the places `i` and `j` and the next block, if anything does. -/
def gapBefore (i j : Nat) (oldStop newStop : Nat) : List Change :=
  if i < oldStop ∨ j < newStop then [⟨false, i, oldStop, j, newStop⟩] else []

/-- The changes from the places `i` and `j` on, unchanged ranges included. -/
def changesFrom (oldLength newLength : Nat) : Nat → Nat → List Block → List Change
  | i, j, [] => gapBefore i j oldLength newLength
  | i, j, b :: bs =>
    gapBefore i j b.old b.new ++
      ⟨true, b.old, b.old + b.size, b.new, b.new + b.size⟩ ::
        changesFrom oldLength newLength (b.old + b.size) (b.new + b.size) bs

/-- The changes between two versions of a text. -/
def changes (old new : List Text) : List Change := changesFrom old.length new.length 0 0 (blocks old new)

/-- The last lines of an unchanged range. -/
def Change.lastLines (c : Change) : Change :=
  if c.same then { c with oldStart := max c.oldStart (c.oldStop - context), newStart := max c.newStart (c.newStop - context) }
  else c

/-- The first lines of an unchanged range. -/
def Change.firstLines (c : Change) : Change :=
  if c.same then { c with oldStop := min c.oldStop (c.oldStart + context), newStop := min c.newStop (c.newStart + context) }
  else c

/-- Changes the last element of a list. -/
def mapLast (f : Change → Change) : List Change → List Change
  | [] => []
  | [c] => [f c]
  | c :: cs => c :: mapLast f cs

/-- Changes with only a few unchanged lines at the start and at the end. -/
def trimmed : List Change → List Change
  | [] => []
  | c :: cs => mapLast Change.firstLines (c.lastLines :: cs)

/-- Cuts changes into hunks at long unchanged ranges; `group` holds the changes of the current hunk. -/
def cutHunks : List Change → List Change → List (List Change)
  | group, [] => [group]
  | group, c :: cs =>
    if c.same ∧ 2 * context < c.oldStop - c.oldStart then (group ++ [c.firstLines]) :: cutHunks [c.lastLines] cs
    else cutHunks (group ++ [c]) cs

/-- Whether a last hunk shows a change. -/
def showsChange (group : List Change) : Bool :=
  match group with
  | [] => false
  | [c] => !c.same
  | _ => true

/-- The hunks that show the changes between two versions of a text. -/
def hunks (old new : List Text) : List (List Change) :=
  let groups := cutHunks [] (trimmed (changes old new))
  groups.dropLast ++ (groups.drop (groups.length - 1)).filter showsChange

end CodeGroom.Diff
