import CodeGroom.Grouping.Countdown
import CodeGroom.Grouping.Pair

/-!
# Scanning a region

A region of code between two lexemes is cut into runs at logical operators, at the parts of `?:`, at commas and at semicolons. A
run with a comparison is put in parentheses when one of the first four ends it, or when the region ends it and something else
stood before it. Round brackets are scanned in the same way as regions of their own; other brackets are passed over.
-/

namespace CodeGroom

/-- Whether a lexeme ends a run that may be put in parentheses. -/
def Kind.endsRun : Kind → Bool
  | logical | question | condColon | comma => true
  | _ => false

/-- Where a scan is: behind which lexeme the current run starts, whether a comparison was met in it, and the lexeme to look at
next. -/
structure Cursor where
  ref : Option Nat
  compared : Bool := false
  at? : Option Nat
deriving DecidableEq, Repr

/-- A lexeme as a report shows it. -/
def Strand.sighting (s : Strand) (i : Option Nat) : Sighting :=
  let x := s.lexeme i
  ⟨x.text, x.line, x.startColumn⟩

/-- Where a scan starts. -/
def Region.start (s : Strand) (r : Region) : Cursor := { ref := r.first, at? := s.nextCode r.first }

namespace Grouping

/-- Notes the start of a scan and whether a directive lies in the region, in which case it is left alone. -/
def announce (g : Grouping) (r : Region) : Grouping × Bool :=
  let s := g.strand
  let g := g.note (.scanStarted r.nest (s.sighting r.first) (s.sighting r.last))
  match s.directiveBetween r.first r.last with
  | some i => (g.note (.directiveMet (s.lexeme (some i)).text (s.lexeme (some i)).line), true)
  | none => (g, false)

/-- The end of a region: the run that is open there is put in parentheses if it has a comparison and is not the only one. -/
def finishRegion (top r : Region) (c : Cursor) (g : Grouping) : Grouping :=
  if c.compared && c.ref ≠ r.first then g.enclose top c.ref r.last else g

/-- What a scan does next: it ends, it goes on at a cursor, or it scans a round bracket first and goes on behind it. -/
inductive Progress where
  | done (g : Grouping)
  | onward (c : Cursor) (g : Grouping)
  | inward (inner : Region) (behind : Nat) (g : Grouping)

/-- What a scan of a region, which is `top` or lies in it, does at a cursor. -/
def look (top r : Region) (c : Cursor) (g : Grouping) : Progress :=
  if c.at?.isNone || c.at? = r.last then .done (g.finishRegion top r c)
  else
    let step (c : Cursor) (i : Option Nat) (g : Grouping) := Progress.onward { c with at? := g.strand.nextCode i } g
    let x := g.strand.lexeme c.at?
    if x.kind.endsRun then
      let g := if c.compared then g.enclose top c.ref c.at? else g
      step { c with ref := c.at?, compared := false } c.at? g
    else match x.kind with
    | .compare => step { c with compared := true } c.at? g
    | .semicolon => step { c with ref := c.at?, compared := false } c.at? g
    | .opening b =>
      match g.strand.partner c.at? with
      | none => if b.isRound then step c c.at? g else .done (g.finishRegion top r c)
      | some i =>
        if b.isRound then
          let inner : Region := { first := c.at?, last := some i, nest := r.nest + 1 }
          let (g, blocked) := g.announce inner
          if blocked then step c (some i) g else .inward inner i g
        else step c (some i) g
    | _ => step c c.at? g

/-- Scans a region from a cursor on. The countdown is told the number of lexemes at each step; it is not spent before the scan is. -/
def scanFrom (top : Region) : Countdown → Region → Cursor → Grouping → Grouping
  | .spent, _, _, g => g
  | .step rest, r, c, g =>
    match look top r c g with
    | .done g => g
    | .onward c g => scanFrom top (rest g.strand.size) r c g
    | .inward inner i g =>
      let g := scanFrom top (rest g.strand.size) inner (inner.start g.strand) g
      scanFrom top (rest g.strand.size) r { c with at? := g.strand.nextCode (some i) } g

/-- Scans a region. -/
def scan (g : Grouping) (r : Region) : Grouping :=
  let (g, blocked) := g.announce r
  if blocked then g else scanFrom r .full r (r.start g.strand) g

end Grouping

end CodeGroom
