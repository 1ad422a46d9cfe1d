import CodeGroom.Diff.Hunk

/-!
# Unified diffs

How the difference between two versions of a text is written: a header with the names of the two, and for each hunk its ranges
and its lines, each with a mark for removed, added or unchanged. Equal versions give no text at all.
-/

namespace CodeGroom.Diff

/-- A range of lines in the heading of a hunk: its first line, counted from 1, and its length unless that is one. An empty range
is named by the line before it. -/
def rangeLabel (start stop : Nat) : String :=
  let length := stop - start
  if length = 1 then s!"{start + 1}"
  else if length = 0 then s!"{start},0"
  else s!"{start + 1},{length}"

/-- Lines with a mark in front of each. -/
def marked (mark : Char) (ls : List Text) : Text := ls.flatMap fun l => .char mark :: l

/-- The lines of a change: unchanged ones, or those removed and then those added. -/
def changeText (old new : List Text) (c : Change) : Text :=
  let removed := (old.drop c.oldStart).take (c.oldStop - c.oldStart)
  let added := (new.drop c.newStart).take (c.newStop - c.newStart)
  if c.same then marked ' ' removed else marked '-' removed ++ marked '+' added

/-- The heading of a hunk. -/
def heading (group : List Change) : Text :=
  match group.head?, group.getLast? with
  | some f, some l =>
    Text.ofString s!"@@ -{rangeLabel f.oldStart l.oldStop} +{rangeLabel f.newStart l.newStop} @@\n"
  | _, _ => []

/-- A hunk. -/
def hunkText (old new : List Text) (group : List Change) : Text := heading group ++ group.flatMap (changeText old new)

/-- The difference between two versions of the text with a name. -/
def unified (name : Text) (old new : List Text) : Text :=
  match hunks old new with
  | [] => []
  | groups =>
    Text.ofString "--- " ++ name ++ Text.ofString "\n+++ " ++ name ++ [Text.lineFeed] ++ groups.flatMap (hunkText old new)

end CodeGroom.Diff
