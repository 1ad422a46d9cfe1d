import CodeGroom.Grouping.Scan
import CodeGroom.Style

/-!
# The grouping passes

Three passes find the regions to scan: the conditions of `if` and `switch`, the values of assignments, the values of `return`. A
region found at the top is scanned and passed over as a whole. Assignments and returns in the condition of a `while` are left
alone, and languages may be left out altogether.
-/

namespace CodeGroom

/-- Whether the parentheses that belong to a lexeme are a condition to scan. -/
def Kind.ownsScannedCondition : Kind → Bool
  | ifWord | elseIfWord | switchWord => true
  | _ => false

/-- Goes back along a path to the lexeme that a statement's depth is judged by: the start of the statement, an opening condition,
or the first lexeme that lies two levels out. `depth` drops by one at each plain opening parenthesis. -/
def Strand.headOnPath (s : Strand) : Int → List Nat → Option Nat
  | _, [] => none
  | depth, p :: rest =>
    let x := s.lexeme (some p)
    if x.marks.startsStatement then some p
    else
      let depth := if x.kind = .opening .paren then depth - 1 else depth
      if x.kind = .opening .condition then some p
      else match rest with
        | [] => none
        | q :: _ => if (s.lexeme (some q)).depth < depth - 1 then some q else s.headOnPath depth rest

/-- The lexeme that starts the statement of lexeme `i`, or the condition around it. -/
def Strand.statementHead (s : Strand) (i : Option Nat) : Option Nat :=
  if (s.lexeme i).marks.startsStatement then i
  else
    let path := (s.behind .sameSide i).filter fun p => !(s.lexeme (some p)).isComment
    s.headOnPath (s.lexeme i).depth path

namespace Grouping

/-- A grouping without insertions. -/
def start (s : Strand) : Grouping := { strand := s }

/-- Whether parentheses may be inserted in this language. -/
def allowed (st : Style) (g : Grouping) : Bool := !st.ungroupedLanguages.contains g.strand.language

/-- Notes that the language is left out. -/
def noteOff (g : Grouping) : Grouping := g.note (.groupingOff g.strand.language)

/-- Scans the region that starts at lexeme `i` and ends at the next lexeme of a kind at its depth. The second value says where
to go on. -/
def scanTo (g : Grouping) (i : Nat) (kind : Kind) : Grouping × Nat :=
  match g.strand.nextOfKind (some i) kind (some (g.strand.lexeme (some i)).depth) .sameSide with
  | none => (g, i)
  | some j => (g.scan { first := some i, last := some j }, j)

/-- Scans the condition that opens at lexeme `i`, if one does. -/
def visitCondition (g : Grouping) (i : Nat) : Grouping × Nat :=
  let x := g.strand.lexeme (some i)
  if x.kind = .opening .condition && x.owner.ownsScannedCondition then g.scanTo i (.closing .condition) else (g, i)

/-- Scans up to the end of the statement behind lexeme `i`, if that is of the kind sought. -/
def visitStatement (kind : Kind) (g : Grouping) (i : Nat) : Grouping × Nat :=
  let x := g.strand.lexeme (some i)
  if x.kind = kind then
    if (g.strand.lexeme (g.strand.statementHead (some i))).owner = .whileWord then (g.note (.whileSkipped x.text x.line), i)
    else g.scanTo i .semicolon
  else (g, i)

/-- Visits lexemes from `i` to the end of the strand. A visit says where to go on. The countdown is told the number of lexemes at
each visit; it is not spent before the strand is. -/
def visitAll (visit : Grouping → Nat → Grouping × Nat) : Countdown → Option Nat → Grouping → Grouping
  | .spent, _, g => g
  | .step _, none, g => g
  | .step rest, some i, g =>
    let (g, j) := visit g i
    visitAll visit (rest g.strand.size) (g.strand.nextCode (some j)) g

/-- Visits the whole strand. -/
def pass (st : Style) (visit : Grouping → Nat → Grouping × Nat) (g : Grouping) : Grouping :=
  if g.allowed st then visitAll visit .full g.strand.first g else g.noteOff

/-- Groups the conditions of `if` and `switch`. -/
def conditions (st : Style) (g : Grouping) : Grouping := g.pass st visitCondition

/-- Groups the values of assignments. -/
def assignments (st : Style) (g : Grouping) : Grouping := g.pass st (visitStatement .assign)

/-- Groups the values of `return`. -/
def returns (st : Style) (g : Grouping) : Grouping := g.pass st (visitStatement .returnWord)

/-- Runs the passes that the style asks for. -/
def run (st : Style) (g : Grouping) : Grouping :=
  if g.allowed st then
    let g := if st.groupConditions then g.conditions st else g
    let g := if st.groupAssignments then g.assignments st else g
    let g := if st.groupReturns then g.returns st else g
    g.note (.pairsCounted g.inserted)
  else g.noteOff

end Grouping

end CodeGroom
