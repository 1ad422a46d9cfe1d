import CodeGroom.Alignment.Arguments
import CodeGroom.Alignment.ColumnGroup
import CodeGroom.Style

/-!
# Aligning calls

Calls of one function that follow each other, each at the start of its line, form a run. The calls of a run are aligned with each
other, then their first arguments, their second ones, and so on.
-/

namespace CodeGroom

/-- Calls of the same function at the same depth, the newest first. -/
structure CallRun where
  name : Text
  depth : Int
  braceDepth : Int
  calls : List Nat
deriving DecidableEq, Repr

/-- The number of calls in a run. -/
def CallRun.count (r : CallRun) : Nat := r.calls.length

/-- The state of aligning calls: how rows are grouped, the current run, and the column groups of its calls and of their
arguments by position. -/
structure CallAligner where
  draft : Draft
  span : Int
  threshold : Int
  tabStop : Int
  numbersRight : Bool
  run? : Option CallRun := none
  calls : ColumnGroup
  arguments : List ColumnGroup := []
deriving Repr

namespace Strand

/-- Goes back over the qualifiers of a name along a path: the lexeme in front of them. -/
def beforeQualifiers (s : Strand) : List Nat → Option Nat
  | [] => none
  | [p] =>
    let k := (s.lexeme (some p)).kind
    if k = .member ∨ k = .qualifier then none else some p
  | p :: q :: rest =>
    let k := (s.lexeme (some p)).kind
    if k = .member ∨ k = .qualifier then
      if (s.lexeme (some q)).kind = .type then s.beforeQualifiers rest else some q
    else some p

/-- The first lexeme of a call with its qualifiers, if that is the first one of its line. -/
def leftEdge (s : Strand) (i : Option Nat) : Option Nat :=
  match i.bind fun i => s.beforeQualifiers (s.before i) with
  | none => none
  | some p => if (s.lexeme (some p)).isNewline then s.nextOf p else none

/-- The name of a call with its qualifiers, which start at `edge`. -/
def qualifiedName (s : Strand) (edge call : Nat) : Text :=
  ((s.onward (some edge)).takeWhile (· ≠ call)).flatMap (fun i => (s.lexeme (some i)).text) ++ (s.lexeme (some call)).text

end Strand

namespace CallAligner

/-- The state before the first lexeme. A span that is not positive stands for the usual three lines. -/
def start (st : Style) (s : Strand) : CallAligner :=
  let span := if 0 < st.alignSpan then st.alignSpan else 3
  let draft : Draft := { strand := s }
  { draft := draft.note (.alignmentStarted span st.alignThreshold), span, threshold := st.alignThreshold
    tabStop := if st.alignOnTabStop then st.outputTabSize else 0, numbersRight := st.alignNumbersRight
    calls := .start span st.alignThreshold 0 }

/-- The lexemes as they stand. -/
def strand (a : CallAligner) : Strand := a.draft.strand

/-- Notes an event. -/
def note (e : Event) (a : CallAligner) : CallAligner := { a with draft := a.draft.note e }

/-- Does the same with each of some column groups in turn. -/
def mapGroups (f : Draft → ColumnGroup → Draft × ColumnGroup) (d : Draft) : List ColumnGroup → Draft × List ColumnGroup
  | [] => (d, [])
  | g :: gs =>
    let (d, g) := f d g
    let (d, gs) := mapGroups f d gs
    (d, g :: gs)

/-- Counts the line feeds of a line break. -/
def newLines (count : Int) (a : CallAligner) : CallAligner :=
  let (d, arguments) := mapGroups (fun d g => g.newLines d count) a.draft a.arguments
  let (d, calls) := a.calls.newLines d count
  { a with draft := d, arguments, calls }

/-- Ends the current run: aligns its calls, then its arguments from left to right. -/
def endRun (a : CallAligner) : CallAligner :=
  let (d, calls) := a.calls.finish a.draft
  let (d, _) := mapGroups (fun d g => g.finish d) d a.arguments
  { a with draft := d, calls, arguments := [], run? := none }

/-- The column group for the arguments at a new position. Numbers are aligned right unless tab stops are used. -/
def freshGroup (a : CallAligner) (i : Nat) : ColumnGroup :=
  { ColumnGroup.start a.span a.threshold a.tabStop with
    alignRight := (a.strand.lexeme (some i)).kind.isNumeric && (a.numbersRight || a.tabStop = 0) }

/-- Adds the arguments of a call to the column groups of their positions. -/
def addArguments (a : CallAligner) (d : Draft) : List ColumnGroup → List Nat → Draft × List ColumnGroup
  | gs, [] => (d, gs)
  | [], i :: is =>
    let (d, g) := (a.freshGroup i).add d (some i)
    let (d, gs) := addArguments a d [] is
    (d, g :: gs)
  | g :: gs, i :: is =>
    let (d, g) := g.add d (some i)
    let (d, gs) := addArguments a d gs is
    (d, g :: gs)

/-- Adds a call and its arguments to the current run. -/
def addCall (call : Nat) (a : CallAligner) : CallAligner :=
  let (d, calls) := a.calls.add a.draft (some call)
  let (d, arguments) := a.addArguments d a.arguments (a.strand.argumentStarts (some call))
  { a with draft := d, calls, arguments }

/-- Starts a run with a call whose name starts at `edge`. -/
def startRun (edge call : Nat) (name : Text) (a : CallAligner) : CallAligner :=
  let x := a.strand.lexeme (some edge)
  let a := { a with run? := some { name, depth := x.depth, braceDepth := x.braceDepth, calls := [call] } }
  (a.note (.runStarted name (a.strand.lexeme (some call)).line)).addCall call

/-- Visits a call: at the start of its line it extends the current run or starts a new one. -/
def visitCall (call : Nat) (a : CallAligner) : CallAligner :=
  match a.strand.leftEdge (some call) with
  | none => a
  | some edge =>
    let name := a.strand.qualifiedName edge call
    let x := a.strand.lexeme (some call)
    match a.run? with
    | none => a.startRun edge call name
    | some r =>
      if r.braceDepth = x.braceDepth ∧ r.depth = x.depth ∧ name = r.name then
        let r := { r with calls := call :: r.calls }
        ({ a with run? := some r }.note (.runExtended name x.line r.count)).addCall call
      else ((a.note (.runEnded name x.line r.count r.name)).endRun).startRun edge call name

/-- Visits a lexeme. -/
def visit (a : CallAligner) (i : Nat) : CallAligner :=
  let x := a.strand.lexeme (some i)
  if x.kind = .callName then a.visitCall i
  else if x.isNewline then a.newLines x.breaks
  else match a.run? with
    | some r => if x.braceDepth < r.braceDepth then (a.note (.blockLeft r.braceDepth x.line r.count)).endRun else a
    | none => a

/-- The end of the source: a run of several calls is aligned, a single call is dropped. -/
def close (a : CallAligner) : CallAligner :=
  match a.run? with
  | some r =>
    if 1 < r.count then (a.note (.sourceEnded r.count)).endRun
    else { a with calls := a.calls.discard, arguments := [], run? := none }
  | none => { a with calls := a.calls.discard, arguments := [] }

/-- Aligns the calls of a strand. -/
def align (st : Style) (s : Strand) : CallAligner := (s.order.foldl visit (start st s)).close

end CallAligner

end CodeGroom
