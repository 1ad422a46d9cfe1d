import CodeGroom.Proofs.Grouping.Conditions

/-!
# The visits of a pass

A pass goes along the strand and scans a region wherever it finds the start of one. Each of its scans is described by the strand
that it starts on and the region that it is of. What every scan keeps, a whole run keeps.
-/

namespace CodeGroom

namespace Grouping

/-- The first lexeme of a kind behind lexeme `i` at its depth. -/
def endOf? (g : Grouping) (i : Nat) (kind : Kind) : Option Nat :=
  g.strand.nextOfKind (some i) kind (some (g.strand.lexeme (some i)).depth) .sameSide

/-- The end of the condition that opens at lexeme `i`, if one does. -/
def conditionEnd? (g : Grouping) (i : Nat) : Option Nat :=
  let x := g.strand.lexeme (some i)
  if x.kind = .opening .condition && x.owner.ownsScannedCondition then g.endOf? i (.closing .condition) else none

/-- The end of the value behind lexeme `i`, if that is of the kind sought and stands in no condition of a `while`. -/
def valueEnd? (kind : Kind) (g : Grouping) (i : Nat) : Option Nat :=
  if (g.strand.lexeme (some i)).kind = kind then
    if (g.strand.lexeme (g.strand.statementHead (some i))).owner = .whileWord then none else g.endOf? i .semicolon
  else none

/-- The region from lexeme `i` to lexeme `j`, found at the top. -/
def regionFromTo (i j : Nat) : Region := { first := some i, last := some j }

/-- A way to visit lexemes: a visit scans a region that starts at the lexeme and goes on at its end, or does nothing and goes on
where it is. -/
structure Visitor where
  stop? : Grouping → Nat → Option Nat
  visit : Grouping → Nat → Grouping × Nat
  visit_of_stop : ∀ {g i j}, stop? g i = some j → visit g i = (g.scan (regionFromTo i j), j)
  visit_of_none : ∀ {g i}, stop? g i = none →
    (visit g i).1.strand = g.strand ∧ (visit g i).1.pairs = g.pairs ∧ (visit g i).2 = i

theorem scanTo_of_end {g : Grouping} {i j : Nat} {kind : Kind} (h : g.endOf? i kind = some j) :
    g.scanTo i kind = (g.scan (regionFromTo i j), j) := by
  unfold endOf? at h
  rw [scanTo, h]
  rfl

theorem scanTo_of_none {g : Grouping} {i : Nat} {kind : Kind} (h : g.endOf? i kind = none) : g.scanTo i kind = (g, i) := by
  unfold endOf? at h
  rw [scanTo, h]

/-- The visits of the pass over conditions. -/
def conditionVisitor : Visitor where
  stop? := conditionEnd?
  visit := visitCondition
  visit_of_stop := by
    intro g i j h
    unfold conditionEnd? at h
    unfold visitCondition
    dsimp only at h ⊢
    split_ifs at h ⊢
    exact scanTo_of_end h
  visit_of_none := by
    intro g i h
    unfold conditionEnd? at h
    unfold visitCondition
    dsimp only at h ⊢
    split_ifs at h ⊢
    · rw [scanTo_of_none h]
      exact ⟨rfl, rfl, rfl⟩
    · exact ⟨rfl, rfl, rfl⟩

/-- The visits of a pass over values. -/
def valueVisitor (kind : Kind) : Visitor where
  stop? := valueEnd? kind
  visit := visitStatement kind
  visit_of_stop := by
    intro g i j h
    unfold valueEnd? at h
    unfold visitStatement
    dsimp only at h ⊢
    split_ifs at h ⊢
    exact scanTo_of_end h
  visit_of_none := by
    intro g i h
    unfold valueEnd? at h
    unfold visitStatement
    dsimp only at h ⊢
    split_ifs at h ⊢
    · exact ⟨rfl, rfl, rfl⟩
    · rw [scanTo_of_none h]
      exact ⟨rfl, rfl, rfl⟩
    · exact ⟨rfl, rfl, rfl⟩

namespace Visitor

/-- The scans of a walk from `i` to the end of the strand, each with the strand that it starts on. -/
def scansFrom (v : Visitor) : Countdown → Option Nat → Grouping → List (Strand × Region)
  | .spent, _, _ => []
  | .step _, none, _ => []
  | .step rest, some i, g =>
    let (g', k) := v.visit g i
    let later := v.scansFrom (rest g'.strand.size) (g'.strand.nextCode (some k)) g'
    match v.stop? g i with
    | none => later
    | some j => (g.strand, regionFromTo i j) :: later

/-- The scans of a pass. -/
def scans (v : Visitor) (st : Style) (g : Grouping) : List (Strand × Region) :=
  if g.allowed st then v.scansFrom .full g.strand.first g else []

end Visitor

/-- The conditions that a run scans, each with the strand that it is scanned on. -/
def conditionScans (st : Style) (g : Grouping) : List (Strand × Region) :=
  if st.groupConditions then conditionVisitor.scans st g else []

/-- A run up to where values come. -/
def afterConditions (st : Style) (g : Grouping) : Grouping := if st.groupConditions then g.conditions st else g

/-- A run up to where returned values come. -/
def afterAssignments (st : Style) (g : Grouping) : Grouping :=
  if st.groupAssignments then (g.afterConditions st).assignments st else g.afterConditions st

/-- The values that a run scans, each with the strand that it is scanned on: assigned ones and then returned ones. -/
def valueScans (st : Style) (g : Grouping) : List (Strand × Region) :=
  (if st.groupAssignments then (valueVisitor .assign).scans st (g.afterConditions st) else []) ++
    if st.groupReturns then (valueVisitor .returnWord).scans st (g.afterAssignments st) else []

/-- Whatever a run scans, each with the strand that it is scanned on. -/
def scans (st : Style) (g : Grouping) : List (Strand × Region) := g.conditionScans st ++ g.valueScans st

section Invariant

/-! ## What every scan keeps -/

variable {P : List (Strand × Region) → Strand → List Insertion → Prop} {st : Style} {g : Grouping}

/-- A scan from lexeme `i` to lexeme `j`, made after some others, keeps a property, and it does not lose the lexeme that the walk
goes on from. -/
def KeptByScan (P : List (Strand × Region) → Strand → List Insertion → Prop) (made : List (Strand × Region)) (g : Grouping)
    (i j : Nat) : Prop :=
  P (made ++ [(g.strand, regionFromTo i j)]) (g.scan (regionFromTo i j)).strand (g.scan (regionFromTo i j)).pairs ∧
    j ∈ (g.scan (regionFromTo i j)).strand.order

theorem nextCode_mem_order {s : Strand} {i j : Nat} (hs : s.WellLinked) (hi : i ∈ s.order) (hj : s.nextCode (some i) = some j) :
    j ∈ s.order := by
  obtain ⟨p, e, q, hlists, rfl⟩ := hs.exists_split hi
  rw [hlists.nextCode_eq] at hj
  obtain ⟨x, hx, rfl⟩ := Option.map_eq_some_iff.1 hj
  rw [hlists.order_eq]
  exact Entry.mem_names (List.mem_append_right _ (List.mem_cons_of_mem _ (List.mem_of_find?_eq_some hx)))

/-- What every scan of a walk keeps, the walk keeps. -/
theorem Visitor.visitAll_keeps (v : Visitor) {L made : List (Strand × Region)}
    (hlinked : ∀ {made s ps}, P made s ps → s.WellLinked)
    (hscan : ∀ {made : List (Strand × Region)} {g : Grouping} {i j : Nat}, P made g.strand g.pairs → i ∈ g.strand.order →
      v.stop? g i = some j → (g.strand, regionFromTo i j) ∈ L → KeptByScan P made g i j) {t : Countdown} {at? : Option Nat}
    (hat : ∀ i, at? = some i → i ∈ g.strand.order) (hL : ∀ sr ∈ v.scansFrom t at? g, sr ∈ L) (h : P made g.strand g.pairs) :
    P (made ++ v.scansFrom t at? g) (visitAll v.visit t at? g).strand (visitAll v.visit t at? g).pairs := by
  induction t generalizing made at? g with
  | spent =>
    rw [scansFrom, List.append_nil]
    exact h
  | step rest ih =>
    cases at? with
    | none =>
      rw [scansFrom, List.append_nil]
      exact h
    | some i =>
      have hi := hat i rfl
      rw [visitAll]
      cases hstop : v.stop? g i with
      | none =>
        obtain ⟨hstrand, hpairs, hgo⟩ := v.visit_of_none hstop
        have h' : P made (v.visit g i).1.strand (v.visit g i).1.pairs := by
          rw [hstrand, hpairs]
          exact h
        have hscans : v.scansFrom (.step rest) (some i) g = v.scansFrom (rest (v.visit g i).1.strand.size)
            ((v.visit g i).1.strand.nextCode (some (v.visit g i).2)) (v.visit g i).1 := by
          simp [scansFrom, hstop]
        rw [hscans] at hL ⊢
        refine ih _ (fun k hk => ?_) hL h'
        rw [hgo] at hk
        exact nextCode_mem_order (hlinked h') (by rwa [hstrand]) hk
      | some j =>
        have hvisit := v.visit_of_stop hstop
        have hscans : v.scansFrom (.step rest) (some i) g = (g.strand, regionFromTo i j) ::
            v.scansFrom (rest (g.scan (regionFromTo i j)).strand.size) ((g.scan (regionFromTo i j)).strand.nextCode (some j))
              (g.scan (regionFromTo i j)) := by
          simp [scansFrom, hstop, hvisit]
        rw [hscans] at hL ⊢
        obtain ⟨h', hj⟩ := hscan h hi hstop (hL _ List.mem_cons_self)
        rw [hvisit, List.append_cons]
        exact ih _ (fun k hk => nextCode_mem_order (hlinked h') hj hk) (fun sr hsr => hL sr (List.mem_cons_of_mem _ hsr)) h'

/-- What every scan of a pass keeps, the pass keeps. -/
theorem Visitor.pass_keeps (v : Visitor) {L made : List (Strand × Region)}
    (hlinked : ∀ {made s ps}, P made s ps → s.WellLinked)
    (hscan : ∀ {made : List (Strand × Region)} {g : Grouping} {i j : Nat}, P made g.strand g.pairs → i ∈ g.strand.order →
      v.stop? g i = some j → (g.strand, regionFromTo i j) ∈ L → KeptByScan P made g i j)
    (hL : ∀ sr ∈ v.scans st g, sr ∈ L) (h : P made g.strand g.pairs) :
    P (made ++ v.scans st g) (g.pass st v.visit).strand (g.pass st v.visit).pairs := by
  unfold scans at hL ⊢
  unfold pass
  cases hallowed : g.allowed st with
  | false =>
    rw [if_neg Bool.false_ne_true, if_neg Bool.false_ne_true, List.append_nil]
    exact h
  | true =>
    rw [hallowed, if_pos rfl] at hL
    rw [if_pos rfl, if_pos rfl]
    refine v.visitAll_keeps (P := P) hlinked hscan (fun i hi => ?_) hL h
    have hfirst := (hlinked h).first_eq
    rw [hi] at hfirst
    exact List.mem_of_head? hfirst.symm

/-- What every scan of a pass keeps, the pass keeps if it is made at all. -/
theorem Visitor.passIf_keeps (v : Visitor) (on : Bool) {L made : List (Strand × Region)}
    (hlinked : ∀ {made s ps}, P made s ps → s.WellLinked)
    (hscan : ∀ {made : List (Strand × Region)} {g : Grouping} {i j : Nat}, P made g.strand g.pairs → i ∈ g.strand.order →
      v.stop? g i = some j → (g.strand, regionFromTo i j) ∈ L → KeptByScan P made g i j)
    (hL : ∀ sr ∈ (if on then v.scans st g else []), sr ∈ L) (h : P made g.strand g.pairs) :
    P (made ++ if on then v.scans st g else []) (if on then g.pass st v.visit else g).strand
      (if on then g.pass st v.visit else g).pairs := by
  cases on with
  | false =>
    rw [if_neg Bool.false_ne_true, if_neg Bool.false_ne_true, List.append_nil]
    exact h
  | true =>
    rw [if_pos rfl] at hL
    rw [if_pos rfl, if_pos rfl]
    exact v.pass_keeps (P := P) hlinked hscan hL h

/-- Where the language is left out, nothing is scanned. -/
theorem scans_of_not_allowed (h : g.allowed st = false) : g.scans st = [] := by
  have hnone : ∀ (v : Visitor) (g' : Grouping), g'.allowed st = false → v.scans st g' = [] := fun v g' h' => by
    rw [Visitor.scans, h', if_neg Bool.false_ne_true]
  have hpass : ∀ (visit : Grouping → Nat → Grouping × Nat) (g' : Grouping), g'.allowed st = false →
      (g'.pass st visit).allowed st = false := fun visit g' h' => by
    rw [pass, h', if_neg Bool.false_ne_true]
    exact h'
  have hconditions : (g.afterConditions st).allowed st = false := by
    unfold afterConditions
    split_ifs
    · exact hpass _ _ h
    · exact h
  have hassignments : (g.afterAssignments st).allowed st = false := by
    unfold afterAssignments
    split_ifs
    · exact hpass _ _ hconditions
    · exact hconditions
  simp only [scans, conditionScans, valueScans, hnone _ _ h, hnone _ _ hconditions, hnone _ _ hassignments, ite_self,
    List.append_nil]

/-- What the scans of conditions and the scans of values keep, a run keeps. -/
theorem run_keeps (hlinked : ∀ {made s ps}, P made s ps → s.WellLinked)
    (hcondition : ∀ {made : List (Strand × Region)} {g' : Grouping} {i j : Nat}, P made g'.strand g'.pairs →
      i ∈ g'.strand.order → conditionEnd? g' i = some j → (g'.strand, regionFromTo i j) ∈ g.conditionScans st →
      KeptByScan P made g' i j)
    (hvalue : ∀ {made : List (Strand × Region)} {kind : Kind} {g' : Grouping} {i j : Nat}, kind = .assign ∨ kind = .returnWord →
      P made g'.strand g'.pairs → i ∈ g'.strand.order → valueEnd? kind g' i = some j →
      (g'.strand, regionFromTo i j) ∈ g.valueScans st → KeptByScan P made g' i j)
    (h : P [] g.strand g.pairs) : P (g.scans st) (g.run st).strand (g.run st).pairs := by
  cases hallowed : g.allowed st with
  | false =>
    rw [scans_of_not_allowed hallowed, run, hallowed, if_neg Bool.false_ne_true]
    exact h
  | true =>
    have hconditions : P (g.conditionScans st) (g.afterConditions st).strand (g.afterConditions st).pairs := by
      rw [← List.nil_append (g.conditionScans st)]
      exact conditionVisitor.passIf_keeps (P := P) st.groupConditions hlinked hcondition (fun _ hsr => hsr) h
    have hassignments := (valueVisitor .assign).passIf_keeps (P := P) st.groupAssignments hlinked (hvalue (.inl rfl))
      (fun _ hsr => List.mem_append_left _ hsr) hconditions
    have hreturns := (valueVisitor .returnWord).passIf_keeps (P := P) st.groupReturns hlinked (hvalue (.inr rfl))
      (g := g.afterAssignments st) (fun _ hsr => List.mem_append_right _ hsr) hassignments
    rw [List.append_assoc] at hreturns
    rw [run, hallowed, if_pos rfl]
    exact hreturns

end Invariant

end Grouping

end CodeGroom
