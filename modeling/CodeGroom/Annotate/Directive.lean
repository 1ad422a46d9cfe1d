import CodeGroom.Annotate.State
import CodeGroom.Text.Lines

/-!
# Reading directives

A directive reaches to the end of its line, and over the next line where a backslash ends it. A conditional directive starts
every branch with the brackets that were open at its start, and goes on behind its end with those open at the end of its first
branch.
-/

namespace CodeGroom.Annotator

/-- The name of the directive at the start of a text, which begins with `#`. -/
def directiveWord (t : Text) : Text := ((t.drop 1).dropWhile (·.isBlank)).takeWhile (·.isWord)

/-- Whether a directive opens a conditional. -/
def opensBranches (word : Text) : Bool := (Text.ofString "if").isPrefixOf word

/-- Whether a directive starts another branch. -/
def startsBranch (word : Text) : Bool := (["else", "elif", "elifdef", "elifndef"].map Text.ofString).contains word

/-- Whether a directive ends a conditional. -/
def endsBranches (word : Text) : Bool := word = Text.ofString "endif"

/-- The brackets and branches behind a directive's name. -/
def enterDirective (word : Text) (a : Annotator) : Annotator :=
  if opensBranches word then { a with branches := { saved := a.opened } :: a.branches }
  else if startsBranch word then
    match a.branches with
    | [] => a
    | b :: bs =>
      let b := { b with firstBranch := some (b.firstBranch.getD a.opened) }
      { a with branches := b :: bs, opened := b.saved, branchDepth := a.branchDepth - 1 }
  else if endsBranches word then
    match a.branches with
    | [] => { a with branchDepth := a.branchDepth - 1 }
    | b :: bs => { a with branches := bs, opened := b.firstBranch.getD a.opened, branchDepth := a.branchDepth - 1 }
  else a

/-- Reads the lines of a directive from the place `pos` on: the first one, and each one behind a line that ends with a
backslash. -/
def directiveLines (src : Source) : Nat → List Text → Annotator → Annotator
  | _, [], a => a
  | pos, l :: ls, a =>
    let indent := (l.takeWhile (·.isOneOf " \t")).length
    let body : Text := l.drop indent
    let part := body.trimEnd
    let stop := pos + l.length
    let a := if part = [] then a else a.add src .directive (pos + indent) part .nothing true
    if !ls.isEmpty && body.getLast? = some (.char '\\') then
      directiveLines src (stop + 1) ls (a.add src .newline stop [Text.lineFeed] .nothing true)
    else { a with resume := stop }

/-- Reads the directive whose `#` stands at `start`. -/
def directive (src : Source) (start : Nat) (a : Annotator) : Annotator :=
  let rest : Text := src.text.drop start
  let word := directiveWord rest
  let a := directiveLines src start rest.lines (a.enterDirective word)
  let a := if opensBranches word || startsBranch word then { a with branchDepth := a.branchDepth + 1 } else a
  a.note (.directiveRead word (src.lineAt start) a.branchDepth)

end CodeGroom.Annotator
