import CodeGroom.Proofs.Alignment.Pushes
import Mathlib.Order.Bounds.Basic

/-!
# A run that has ended is aligned

Without a threshold no row is passed over, so all rows of a run wait until it ends unless some are applied early. Then its calls are
moved to one column, and its arguments to one column for each position. What is done to a later position leaves an earlier one
alone: on a line its rows stand further behind, with something in between.
-/

namespace CodeGroom

/-- Whether an event reports that a run starts. -/
def Event.startsRun : Event → Bool
  | .runStarted _ _ => true
  | _ => false

/-- Whether an event reports that rows are applied early. -/
def Event.exceedsSpan : Event → Bool
  | .spanExceeded _ _ => true
  | _ => false

namespace Draft

/-- Whether rows were applied early since a run last started. -/
def early (d : Draft) : Bool := (d.trace.takeWhile (!·.startsRun)).any (·.exceedsSpan)

/-- An event that starts a run forgets that rows were applied early, and one that reports it says so. -/
theorem early_note (d : Draft) (e : Event) : (d.note e).early = (!e.startsRun && (e.exceedsSpan || d.early)) := by
  rw [early, note, List.takeWhile_cons]
  cases e.startsRun <;> rfl

/-- Reporting an alignment says neither. -/
theorem early_alignment (d : Draft) (m : Alignment) (s : Strand) : (⟨s, m.event :: d.trace⟩ : Draft).early = d.early := by
  obtain ⟨rows, right, target⟩ := m
  cases right <;> rfl

end Draft

namespace ColumnGroup

open Draft

/-- A group without a threshold, by which no row is passed over. -/
structure Undivided (tabStop : Int) (g : ColumnGroup) : Prop where
  threshold_le : g.threshold ≤ 0
  passed_eq : g.passed = []
  tabStop_eq : g.tabStop = tabStop

variable {tabStop : Int} {d : Draft} {g : ColumnGroup}

/-- A group without a threshold starts so. -/
theorem undivided_start {threshold : Int} (h : threshold ≤ 0) (span tabStop : Int) (right : Bool) :
    Undivided tabStop { start span threshold tabStop with alignRight := right } := ⟨h, rfl, rfl⟩

theorem rows_of_passed_nil (h : g.passed = []) : g.rows = g.pending.map (·.lexeme) := by rw [rows, h, List.append_nil]

/-- Where nothing was passed over, finishing is a single round. -/
theorem finish_eq_apply (h : g.passed = []) (d : Draft) : g.finish d = g.apply d := by
  have hpassed : (g.apply d).2.passed = [] := (passed_apply d g).trans h
  unfold finish
  dsimp only
  rw [hpassed]
  rfl

/-- Applying the rows of a group moves nothing, or places their alignment. -/
theorem strand_apply (d : Draft) (g : ColumnGroup) : (g.apply d).1.strand =
    if g.pending.length < 2 then d.strand else (g.alignment d.strand).place d.strand := by
  rw [apply_eq]
  split_ifs <;> rfl

theorem alignRight_apply (d : Draft) (g : ColumnGroup) : (g.apply d).2.alignRight = g.alignRight := by
  rw [apply_eq]
  split_ifs <;> rfl

/-- Applying rows says nothing about whether that was early. -/
theorem early_apply (d : Draft) (g : ColumnGroup) : (g.apply d).1.early = d.early := by
  rw [apply_eq]
  split_ifs
  · rfl
  · exact early_alignment d _ _

namespace Undivided

variable (h : Undivided tabStop g)

include h

/-- A row that is offered is taken in. -/
theorem add (d : Draft) (i : Option Nat) : (g.add d i).1 = d ∧ Undivided tabStop (g.add d i).2 ∧
    (g.add d i).2.rows = g.rows ++ [i] ∧ (g.add d i).2.alignRight = g.alignRight := by
  have hnear : g.tooFar (d.strand.lexeme i).column = false := by simp [tooFar, Int.not_lt.2 h.threshold_le]
  rw [ColumnGroup.add, addRow, if_neg (ne_true_of_eq_false hnear)]
  refine ⟨rfl, ⟨h.threshold_le, h.passed_eq, h.tabStop_eq⟩, ?_, rfl⟩
  simp [rows, h.passed_eq]

/-- Closing a batch passes no row over. -/
theorem closeBatch (applied : Bool) : Undivided tabStop (g.closeBatch applied) := ⟨h.threshold_le, h.passed_eq, h.tabStop_eq⟩

/-- Applying rows passes no row over. -/
theorem apply (d : Draft) : Undivided tabStop (g.apply d).2 := by
  rw [apply_eq]
  split_ifs <;> exact h.closeBatch true

/-- Counting lines keeps the rows unless they are applied early. -/
theorem newLines (d : Draft) (count : Int) : Undivided tabStop (g.newLines d count).2 ∧
    (g.newLines d count).2.alignRight = g.alignRight ∧
      ((g.newLines d count).1.early = false → d.early = false ∧ (g.newLines d count).2.rows = g.rows) := by
  unfold ColumnGroup.newLines
  dsimp only
  split_ifs with hnone hoverdue
  · exact ⟨h, rfl, fun hearly => ⟨hearly, rfl⟩⟩
  · have hcounted : Undivided tabStop { g with lineCount := g.lineCount + count } := ⟨h.threshold_le, h.passed_eq, h.tabStop_eq⟩
    generalize hg : ({ g with lineCount := g.lineCount + count } : ColumnGroup) = g' at hcounted ⊢
    have hright : g'.alignRight = g.alignRight := by rw [← hg]
    have hpassed : (g'.applyEarly d).2.passed = [] := (passed_apply _ _).trans hcounted.passed_eq
    rw [retake, hpassed]
    refine ⟨?_, ?_, fun hearly => ?_⟩
    · exact hcounted.apply _
    · exact (alignRight_apply _ _).trans hright
    · -- That the span is exceeded was reported.
      have hreported : (g'.applyEarly d).1.early = true := by rw [applyEarly, early_apply, early_note]; rfl
      rw [List.length_nil, retakeFor, hreported] at hearly
      cases hearly
  · exact ⟨⟨h.threshold_le, h.passed_eq, h.tabStop_eq⟩, rfl, fun hearly => ⟨hearly, rfl⟩⟩

end Undivided

end ColumnGroup

namespace CallAligner

open ColumnGroup Stage

variable {s : Strand} {st : Style} {a : CallAligner} {d : Draft} {gs : List ColumnGroup} {tabStop : Int} {r : CallRun} {call : Nat}

/-! ## Rows wait until their run ends -/

/-- So it is for all groups together. -/
theorem undivided_mapGroups_newLines (count : Int) (hgs : ∀ g ∈ gs, Undivided tabStop g) (d : Draft) :
    (∀ g ∈ (mapGroups (fun d g => g.newLines d count) d gs).2, Undivided tabStop g) ∧
      ((mapGroups (fun d g => g.newLines d count) d gs).1.early = false → d.early = false ∧
        (mapGroups (fun d g => g.newLines d count) d gs).2.map (·.rows) = gs.map (·.rows)) := by
  induction gs generalizing d with
  | nil => exact ⟨hgs, fun hearly => ⟨hearly, rfl⟩⟩
  | cons g gs ih =>
    obtain ⟨hgroup, -, hkept⟩ := (hgs g List.mem_cons_self).newLines d count
    obtain ⟨hrest, hkept'⟩ := ih (fun g hg => hgs g (List.mem_cons_of_mem _ hg)) (g.newLines d count).1
    refine ⟨List.forall_mem_cons.2 ⟨hgroup, hrest⟩, fun hearly => ?_⟩
    obtain ⟨hearly', hrows'⟩ := hkept' hearly
    obtain ⟨hearly'', hrows⟩ := hkept hearly'
    exact ⟨hearly'', by rw [mapGroups, List.map_cons, List.map_cons, hrows, ← hrows']⟩

/-- Each argument of a call is taken in by the group of its position. -/
theorem undivided_addArguments (ha : a.threshold ≤ 0) (hgs : ∀ g ∈ gs, Undivided a.tabStop g) (d : Draft) (is : List Nat) :
    (a.addArguments d gs is).1 = d ∧ (∀ g ∈ (a.addArguments d gs is).2, Undivided a.tabStop g) ∧
      (a.addArguments d gs is).2.map (·.rows) = offered (gs.map (·.rows)) is := by
  induction is generalizing gs with
  | nil => cases gs <;> exact ⟨rfl, hgs, rfl⟩
  | cons i is ih =>
    have hstep : ∀ (g : ColumnGroup) (rest : List ColumnGroup), Undivided a.tabStop g → (∀ g ∈ rest, Undivided a.tabStop g) →
        let x := a.addArguments (g.add d (some i)).1 rest is
        x.1 = d ∧ (∀ g' ∈ (g.add d (some i)).2 :: x.2, Undivided a.tabStop g') ∧
          ((g.add d (some i)).2 :: x.2).map (·.rows) = (g.rows ++ [some i]) :: offered (rest.map (·.rows)) is := by
      intro g rest hg hrest
      obtain ⟨hdraft, hgroup, hrows, -⟩ := hg.add d i
      obtain ⟨hdraft', hrest', hrows'⟩ := ih hrest
      dsimp only
      rw [hdraft, List.map_cons, hrows, hrows']
      exact ⟨hdraft', List.forall_mem_cons.2 ⟨hgroup, hrest'⟩, rfl⟩
    cases gs with
    | nil => exact hstep (a.freshGroup i) [] (undivided_start ha _ _ _) hgs
    | cons g gs => exact hstep g gs (hgs g List.mem_cons_self) fun g hg => hgs g (List.mem_cons_of_mem _ hg)

/-- A call and each of its arguments are taken in by the group of their position. -/
theorem addCall_spec (ha : a.threshold ≤ 0) (hcalls : Undivided tabStop a.calls) (hgs : ∀ g ∈ a.arguments, Undivided a.tabStop g)
    (call : Nat) :
    (a.addCall call).draft = a.draft ∧ Undivided tabStop (a.addCall call).calls ∧
      (∀ g ∈ (a.addCall call).arguments, Undivided a.tabStop g) ∧ (a.addCall call).calls.alignRight = a.calls.alignRight ∧
        (a.addCall call).groupRows = offered a.groupRows (a.strand.rowsOf call) := by
  obtain ⟨hdraft, hcalls', hrow, hright⟩ := hcalls.add a.draft (some call)
  obtain ⟨hdraft', harguments, hrows⟩ := undivided_addArguments ha hgs a.draft (a.strand.argumentStarts (some call))
  unfold addCall
  dsimp only
  rw [hdraft]
  refine ⟨hdraft', hcalls', harguments, hright, ?_⟩
  exact congrArg₂ List.cons hrow hrows

/-- An aligner without a threshold: its groups pass no row over, without a run they have no rows, and they have all rows of the
calls of the current run unless some were applied early. -/
structure Whole (s : Strand) (tabStop : Int) (a : CallAligner) : Prop where
  recolumned : Strand.Recolumned s a.strand
  threshold_le : a.threshold ≤ 0
  tabStop_eq : a.tabStop = tabStop
  calls : Undivided 0 a.calls
  left : a.calls.alignRight = false
  arguments : ∀ g ∈ a.arguments, Undivided tabStop g
  idle : a.run? = none → a.groupRows = [[]]
  rows : ∀ r, a.run? = some r → a.draft.early = false → ∀ p, poolOf a.groupRows p = r.calls.reverse.flatMap (offer s · p)

namespace Whole

variable (h : Whole s tabStop a)

include h

/-- Reporting leaves a run whole. -/
theorem note {e : Event} (he : e.startsRun = false) : Whole s tabStop (a.note e) where
  recolumned := h.recolumned
  threshold_le := h.threshold_le
  tabStop_eq := h.tabStop_eq
  calls := h.calls
  left := h.left
  arguments := h.arguments
  idle := h.idle
  rows r hr hearly := h.rows r hr (by
    rw [CallAligner.note, Draft.early_note, he, Bool.not_false, Bool.true_and, Bool.or_eq_false_iff] at hearly
    exact hearly.2)

/-- New lines leave a run whole. -/
theorem newLines (count : Int) : Whole s tabStop (a.newLines count) := by
  obtain ⟨harguments, hkept⟩ := undivided_mapGroups_newLines count h.arguments a.draft
  obtain ⟨hcalls, hright, hkept'⟩ :=
    h.calls.newLines (mapGroups (fun d g => g.newLines d count) a.draft a.arguments).1 count
  have hgroups : (a.newLines count).draft.early = false → a.draft.early = false ∧ (a.newLines count).groupRows = a.groupRows := by
    intro hearly
    obtain ⟨hearly', hrows'⟩ := hkept' hearly
    obtain ⟨hearly'', hrows⟩ := hkept hearly'
    exact ⟨hearly'', congrArg₂ List.cons hrows' hrows⟩
  refine ⟨h.recolumned.trans (recolumned_newLines count a), h.threshold_le, h.tabStop_eq, hcalls, hright.trans h.left, harguments,
    fun hr => ?_, fun r hr hearly => ?_⟩
  · obtain ⟨hnone, hno⟩ := List.cons_eq_cons.1 (h.idle hr)
    have harguments : a.arguments = [] := List.map_eq_nil_iff.1 hno
    have hpending : a.calls.pending = [] := List.map_eq_nil_iff.1 ((rows_of_passed_nil h.calls.passed_eq).symm.trans hnone)
    have hsame : (a.newLines count).groupRows = a.groupRows := by
      simp [CallAligner.newLines, groupRows, harguments, mapGroups, ColumnGroup.newLines, hpending]
    rw [hsame]
    exact h.idle hr
  · obtain ⟨hearly', heq⟩ := hgroups hearly
    rw [heq]
    exact h.rows r hr hearly'

/-- The end of a run leaves what follows whole. -/
theorem endRun : Whole s tabStop a.endRun := by
  have hfinish : a.endRun.calls = (a.calls.apply a.draft).2 := congrArg Prod.snd (finish_eq_apply h.calls.passed_eq a.draft)
  refine ⟨h.recolumned.trans (recolumned_endRun a), h.threshold_le, h.tabStop_eq, ?_, ?_, nofun, fun _ => ?_, nofun⟩
  · rw [hfinish]
    exact h.calls.apply _
  · rw [hfinish, alignRight_apply, h.left]
  · exact congrArg (fun is => [is]) (rows_finish a.draft a.calls)

/-- A call joins a run. -/
theorem join (e : Event)
    (hrows : (a.draft.note e).early = false → ∀ p, poolOf a.groupRows p ++ offer s call p = r.calls.reverse.flatMap (offer s · p)) :
    Whole s tabStop (({ a with run? := some r }.note e).addCall call) := by
  have hgroups : ∀ g ∈ a.arguments, Undivided a.tabStop g := fun g hg => h.tabStop_eq ▸ h.arguments g hg
  obtain ⟨hdraft, hcalls, harguments, hright, hrows'⟩ :=
    addCall_spec (a := { a with run? := some r }.note e) h.threshold_le h.calls hgroups call
  refine ⟨?_, h.threshold_le, h.tabStop_eq, hcalls, hright.trans h.left, fun g hg => ?_, nofun, fun r' hr' hearly p => ?_⟩
  · rw [strand, hdraft]
    exact h.recolumned
  · exact h.tabStop_eq ▸ harguments g hg
  · obtain rfl := Option.some.inj hr'
    rw [hdraft] at hearly
    have hoffer : offer s call p = (((a.strand.rowsOf call)[p]?).toList.map some) := by
      rw [offer, Strand.rowsOf, Strand.rowsOf, h.recolumned.argumentStarts_eq]
    rw [← hrows hearly p, hrows', hoffer]
    exact poolOf_offered _ _ _

/-- What visiting a call does. -/
theorem visitCall (call : Nat) : Whole s tabStop (a.visitCall call) := by
  -- A call that starts a run finds the groups without rows.
  have hstart : ∀ {a : CallAligner} (edge : Nat) (name : Text), Whole s tabStop a → a.run? = none →
      Whole s tabStop (a.startRun edge call name) := fun edge name h hrun => by
    refine h.join _ fun _ p => ?_
    rw [h.idle hrun]
    cases p <;> simp [poolOf]
  unfold CallAligner.visitCall
  cases a.strand.leftEdge (some call) with
  | none => exact h
  | some edge =>
    dsimp only
    cases hrun : a.run? with
    | none => exact hstart edge _ h hrun
    | some r =>
      dsimp only
      split_ifs with hsame
      · refine h.join _ fun hearly p => ?_
        rw [Draft.early_note] at hearly
        rw [h.rows r hrun hearly p]
        simp
      · exact hstart edge _ (h.note rfl).endRun rfl

/-- Whatever lexeme comes, runs are whole. -/
theorem visit (i : Nat) : Whole s tabStop (a.visit i) := by
  unfold CallAligner.visit
  dsimp only
  split_ifs
  · exact h.visitCall i
  · exact h.newLines _
  · cases a.run? with
    | none => exact h
    | some r =>
      dsimp only
      split_ifs
      · exact (h.note rfl).endRun
      · exact h

end Whole

/-- Runs are whole at the start. -/
theorem whole_start (s : Strand) (h : st.alignThreshold ≤ 0) :
    Whole s (if st.alignOnTabStop then st.outputTabSize else 0) (start st s) where
  recolumned := .refl s
  threshold_le := h
  tabStop_eq := rfl
  calls := undivided_start h _ _ _
  left := rfl
  arguments := nofun
  idle _ := rfl
  rows := nofun

/-- And so they are when any lexemes have come. -/
theorem whole_visits (s : Strand) (h : st.alignThreshold ≤ 0) (is : List Nat) :
    Whole s (if st.alignOnTabStop then st.outputTabSize else 0) (is.foldl visit (start st s)) :=
  List.foldlRecOn is visit (whole_start s h) fun _ h i _ => h.visit i

/-! ## The groups of a run are finished one after another -/

/-- An aligner's strand when the first groups of a run were finished: none, or its calls and so many positions of arguments. -/
def finishedTo (a : CallAligner) (n : Nat) : Draft := (mapGroups (fun d g => g.finish d) a.draft ((a.calls :: a.arguments).take n)).1

/-- What several groups do to a draft they do one after another. -/
theorem mapGroups_append (f : Draft → ColumnGroup → Draft × ColumnGroup) (d : Draft) (gs gs' : List ColumnGroup) :
    (mapGroups f d (gs ++ gs')).1 = (mapGroups f (mapGroups f d gs).1 gs').1 := by
  induction gs generalizing d with
  | nil => rfl
  | cons g gs ih => exact ih (f d g).1

/-- Finishing groups changes columns only. -/
theorem recolumned_mapGroups_finish (gs : List ColumnGroup) (d : Draft) :
    Strand.Recolumned d.strand (mapGroups (fun d g => g.finish d) d gs).1.strand := by
  let x : Stage := ⟨[], none, some 0, d, poolOf (gs.map (·.rows))⟩
  have hrefl : Steps d.strand (fun _ => True) x { x with finishing := some 0, draft := d, pool := poolOf ([] ++ gs.map (·.rows)) } :=
    .refl
  obtain ⟨q, hsteps⟩ := steps_mapGroups_finish gs [] (Nat.le_refl 0) hrefl
  exact hsteps.recolumned

/-- Groups whose rows are on other lines than a lexeme, or far enough behind it, leave its edge. -/
theorem edge_mapGroups_finish (m : Alignment) {j : Nat} (hs : s.WellLinked) (hj : s.OnLine j) (hgs : ∀ g ∈ gs, g.passed = [])
    (hfar : ∀ g ∈ gs, ∀ o ∈ g.rows, ∃ i ∈ s.order, o = some i ∧ (s.lineOf i = s.lineOf j → s.placeOf j + 1 < s.placeOf i))
    (hd : Strand.Recolumned s d.strand) :
    m.edge (mapGroups (fun d g => g.finish d) d gs).1.strand (some j) = m.edge d.strand (some j) := by
  induction gs generalizing d with
  | nil => rfl
  | cons g gs ih =>
    have hg := hgs g List.mem_cons_self
    have hrows := rows_of_passed_nil hg
    have hfirst : m.edge (g.finish d).1.strand (some j) = m.edge d.strand (some j) := by
      rw [finish_eq_apply hg, strand_apply]
      split_ifs
      · rfl
      · refine Alignment.edge_foldl_move m _ (hd.wellLinked hs) (hd.onLine_iff.2 hj) (fun o ho => ?_) fun i hi hline => ?_
        · obtain ⟨i, hi, rfl, -⟩ := hfar g List.mem_cons_self o (hrows ▸ ho)
          exact ⟨i, hd.order_eq ▸ hi, rfl⟩
        · obtain ⟨i', -, heq, hplace⟩ := hfar g List.mem_cons_self (some i) (by rw [hrows]; exact hi)
          obtain rfl := Option.some.inj heq
          rw [hd.lineOf_eq, hd.lineOf_eq] at hline
          rw [hd.placeOf_eq, hd.placeOf_eq]
          exact hplace hline
    have hd' : Strand.Recolumned s (g.finish d).1.strand := hd.trans (recolumned_mapGroups_finish [g] d)
    exact (ih (fun g hg => hgs g (List.mem_cons_of_mem _ hg)) (fun g hg => hfar g (List.mem_cons_of_mem _ hg)) hd').trans hfirst

/-- When a run of equally deep calls that lead lines has ended, the rows of each group that has at least two are where their group put
them. -/
theorem edge_endRun {cs : List Nat} (hs : s.WellLinked) (ha : Strand.Recolumned s a.strand) (hleads : ∀ c ∈ cs, s.LeadsLine c)
    (hdepth : ∀ c ∈ cs, ∀ c' ∈ cs, (s.lexeme (some c)).depth = (s.lexeme (some c')).depth)
    (hgs : ∀ g ∈ a.calls :: a.arguments, g.passed = []) (hrows : ∀ p, ∀ o ∈ poolOf a.groupRows p, IsRow s cs p o)
    {p : Nat} {g : ColumnGroup} (hg : (a.calls :: a.arguments)[p]? = some g) (htwo : 2 ≤ g.rows.length) :
    ∀ o ∈ g.rows, (g.alignment (a.finishedTo p).strand).edge a.endRun.strand o = (g.alignment (a.finishedTo p).strand).target := by
  have hpool : ∀ {q : Nat} {g : ColumnGroup}, (a.calls :: a.arguments)[q]? = some g → poolOf a.groupRows q = g.rows := fun hg => by
    rw [poolOf, groupRows, List.getElem?_map, hg]
    rfl
  obtain ⟨hp, hget⟩ := List.getElem?_eq_some_iff.1 hg
  have hsplit : a.calls :: a.arguments = (a.calls :: a.arguments).take p ++ g :: (a.calls :: a.arguments).drop (p + 1) := by
    rw [← hget, ← List.drop_eq_getElem_cons, List.take_append_drop]
  have hend : a.endRun.strand =
      (mapGroups (fun d g => g.finish d) (g.finish (a.finishedTo p)).1 ((a.calls :: a.arguments).drop (p + 1))).1.strand := by
    have hall : a.endRun.draft = (mapGroups (fun d g => g.finish d) a.draft
        ((a.calls :: a.arguments).take p ++ g :: (a.calls :: a.arguments).drop (p + 1))).1 := by
      rw [← hsplit]
      rfl
    rw [strand, hall, mapGroups_append]
    rfl
  have hpassed := hgs g (List.mem_of_getElem? hg)
  have hpending := rows_of_passed_nil hpassed
  have hd : Strand.Recolumned s (a.finishedTo p).strand := ha.trans (recolumned_mapGroups_finish _ _)
  have hd' : Strand.Recolumned s (g.finish (a.finishedTo p)).1.strand := hd.trans (recolumned_mapGroups_finish [g] _)
  have hapart : Alignment.Apart s g.rows := apart_of_isRow hs hleads (fun o ho => hrows p o (hpool hg ▸ ho))
    fun c hc c' hc' _ _ hrow hrow' hline => hrow.eq_of_lineOf_eq hs (hleads c hc) (hleads c' hc') (hdepth c hc c' hc') hrow' hline
  intro o ho
  obtain ⟨j, rfl, hj⟩ := hapart.onLine o ho
  rw [hend, edge_mapGroups_finish _ hs hj (fun g' hg' => hgs g' (List.mem_of_mem_drop hg')) (fun g' hg' o' ho' => ?_) hd']
  · have hmany : ¬g.pending.length < 2 := by
      rw [hpending, List.length_map] at htwo
      omega
    have haligned : (g.alignment (a.finishedTo p).strand).rows = g.rows := hpending.symm
    rw [finish_eq_apply hpassed, strand_apply, if_neg hmany]
    refine Alignment.edge_place _ (hd.wellLinked hs) ?_ (g.reaches_alignment _) _ ?_
    · rw [haligned]
      exact hapart.recolumned hd
    · rwa [haligned]
  · -- The rows of a later position stand behind those of this one.
    obtain ⟨n, hn⟩ := List.getElem?_of_mem hg'
    rw [List.getElem?_drop] at hn
    obtain ⟨c, hc, i, hi, hrow⟩ := hrows p _ (hpool hg ▸ ho)
    obtain ⟨c', hc', i', rfl, hrow'⟩ := hrows _ o' (hpool hn ▸ ho')
    obtain rfl := Option.some.inj hi
    exact ⟨i', hrow'.mem_order hs (hleads c' hc').mem, rfl, fun hline =>
      hrow.placeOf_lt_of_lineOf_eq hs (hleads c hc) (hleads c' hc') (hdepth c hc c' hc') hrow' (by omega) hline.symm⟩

/-! ## Runs without early rows -/

/-- The largest of some numbers is the greatest of them. -/
theorem isGreatest_largest {xs : List Int} (h : xs ≠ []) : IsGreatest {x | x ∈ xs} (largest xs) := by
  have hmem : ∀ (ys : List Int) (y : Int), ys.foldl max y ∈ y :: ys := by
    intro ys
    induction ys with
    | nil => simp
    | cons z ys ih =>
      intro y
      rw [List.foldl_cons]
      rcases List.mem_cons.1 (ih (max y z)) with heq | hmem
      · rw [heq]
        rcases Int.le_total y z with hle | hle
        · simp [Int.max_eq_right hle]
        · simp [Int.max_eq_left hle]
      · simp [hmem]
  refine ⟨?_, fun x hx => le_largest hx⟩
  cases xs with
  | nil => exact absurd rfl h
  | cons y ys => exact hmem ys y

/-- The tab stop that a column is moved to is the first one that is not left of it. -/
theorem isLeast_nextTabStop {tabStop : Int} (h : 0 < tabStop) (column : Int) :
    IsLeast {x | column ≤ x ∧ ∃ m : Int, x = 1 + m * tabStop} (nextTabStop tabStop column) := by
  refine ⟨⟨le_nextTabStop h column, (column - 1 + tabStop - 1).fdiv tabStop, ?_⟩, ?_⟩
  · rw [nextTabStop, Int.add_comm]
  · rintro x ⟨hle, m, rfl⟩
    have hm : (column - 1 + tabStop - 1).fdiv tabStop < m + 1 := by
      rw [Int.fdiv_eq_ediv_of_nonneg _ (Int.le_of_lt h)]
      refine Int.ediv_lt_of_lt_mul h ?_
      rw [Int.add_mul, Int.one_mul]
      omega
    have hmul := Int.mul_le_mul_of_nonneg_right (Int.lt_add_one_iff.1 hm) (Int.le_of_lt h)
    rw [nextTabStop]
    omega

/-- Some lexemes have one column in the second strand: the largest that they have in the first one or, with tab stops, the first tab
stop that is not left of that. -/
def StartAlike (tabStop : Int) (u t : Strand) (is : List Nat) : Prop :=
  ∃ widest column, IsGreatest {x | ∃ i ∈ is, u.columnAt i = x} widest ∧
    (if 0 < tabStop then IsLeast {x | widest ≤ x ∧ ∃ m : Int, x = 1 + m * tabStop} column else column = widest) ∧
      ∀ i ∈ is, t.columnAt i = column

/-- Some lexemes end in one column in the second strand, the largest that they end in in the first one. -/
def EndAlike (u t : Strand) (is : List Nat) : Prop :=
  ∃ column, IsGreatest {x | ∃ i ∈ is, endColumn u (some i) = x} column ∧ ∀ i ∈ is, endColumn t (some i) = column

/-- Rows whose edges are at the target start alike. -/
theorem startAlike_of_edge {g : ColumnGroup} {u t : Strand} {is : List Nat} (hright : g.alignRight = false)
    (hrows : g.pending.map (·.lexeme) = is.reverse.map some) (hne : is ≠ [])
    (hedge : ∀ i ∈ is, (g.alignment u).edge t (some i) = (g.alignment u).target) : StartAlike g.tabStop u t is := by
  have htarget : (g.alignment u).target = targetColumn g.tabStop u (is.reverse.map some) := by
    rw [alignment, hright, hrows, if_neg Bool.false_ne_true]
  have hcolumn : ∀ i ∈ is, t.columnAt i = targetColumn g.tabStop u (is.reverse.map some) := fun i hi => by
    have heq := hedge i hi
    rwa [htarget, alignment, hright, Alignment.edge, if_neg Bool.false_ne_true] at heq
  have hgreatest : IsGreatest {x | x ∈ (is.reverse.map some).map fun o => (u.lexeme o).column} (largest _) :=
    isGreatest_largest (by simpa using hne)
  have hset : {x | x ∈ (is.reverse.map some).map fun o => (u.lexeme o).column} = {x | ∃ i ∈ is, u.columnAt i = x} := by
    ext x
    simp [Strand.columnAt]
  refine ⟨_, _, hset ▸ hgreatest, ?_, hcolumn⟩
  rw [targetColumn]
  split_ifs with htab
  · exact isLeast_nextTabStop htab _
  · rfl

/-- Rows whose edges are at the target end alike, where they are aligned on the right. -/
theorem endAlike_of_edge {g : ColumnGroup} {u t : Strand} {is : List Nat} (hright : g.alignRight = true)
    (hrows : g.pending.map (·.lexeme) = is.reverse.map some) (hne : is ≠ [])
    (hedge : ∀ i ∈ is, (g.alignment u).edge t (some i) = (g.alignment u).target) : EndAlike u t is := by
  have htarget : (g.alignment u).target = largest ((is.reverse.map some).map (endColumn u)) := by
    rw [alignment, hright, hrows, if_pos rfl]
  have hcolumn : ∀ i ∈ is, endColumn t (some i) = largest ((is.reverse.map some).map (endColumn u)) := fun i hi => by
    have heq := hedge i hi
    rwa [htarget, alignment, hright, Alignment.edge, if_pos rfl] at heq
  have hgreatest : IsGreatest {x | x ∈ (is.reverse.map some).map (endColumn u)} (largest _) :=
    isGreatest_largest (by simpa using hne)
  have hset : {x | x ∈ (is.reverse.map some).map (endColumn u)} = {x | ∃ i ∈ is, endColumn u (some i) = x} := by
    ext x
    simp
  exact ⟨_, hset ▸ hgreatest, hcolumn⟩

/-- The rows at a position of all calls of a run that have one there: the calls, then their arguments by position. -/
def rowsAt (s : Strand) (r : CallRun) (p : Nat) : List Nat := r.calls.filterMap fun c => (s.rowsOf c)[p]?

theorem flatMap_offer (s : Strand) (r : CallRun) (p : Nat) :
    r.calls.reverse.flatMap (offer s · p) = (rowsAt s r p).reverse.map some := by
  rw [rowsAt, ← List.filterMap_reverse]
  induction r.calls.reverse with
  | nil => rfl
  | cons c cs ih =>
    rw [List.flatMap_cons, ih, List.filterMap_cons, offer]
    cases (s.rowsOf c)[p]? <;> rfl

/-- Each position with rows has a group with all of them, unless some were applied early. -/
theorem Whole.exists_group (h : Whole s tabStop a) (hr : a.run? = some r) (hearly : a.draft.early = false) {p : Nat}
    (hp : rowsAt s r p ≠ []) :
    ∃ g, (a.calls :: a.arguments)[p]? = some g ∧ g.passed = [] ∧ g.rows = (rowsAt s r p).reverse.map some := by
  have hpool : poolOf a.groupRows p = (rowsAt s r p).reverse.map some := (h.rows r hr hearly p).trans (flatMap_offer s r p)
  rw [poolOf, groupRows, List.getElem?_map] at hpool
  cases hg : (a.calls :: a.arguments)[p]? with
  | none =>
    rw [hg] at hpool
    exact absurd (by simpa using hpool.symm) hp
  | some g =>
    rw [hg] at hpool
    refine ⟨g, rfl, ?_, hpool⟩
    rcases List.mem_cons.1 (List.mem_of_getElem? hg) with rfl | hmem
    · exact h.calls.passed_eq
    · exact (h.arguments g hmem).passed_eq

/-- Without a threshold, when a run of at least two calls has ended none of whose rows were applied early, its calls have the largest
column that they had. So do the arguments at each position, as they stood when the calls and the positions in front were aligned, or
the first tab stop not left of it; arguments that are aligned right end in the largest column that they ended in. -/
theorem aligned_endRun (st : Style) {src : Source} {ts : List Token} (hts : src.Legible ts)
    (hs : s = src.read ts ∨ ∃ st trace, s = (({ strand := src.read ts, trace } : Grouping).run st).strand)
    (hthreshold : st.alignThreshold = 0) {is : List Nat} (his : is <+: s.order) (ha : a = is.foldl visit (start st s))
    (hr : a.run? = some r) (htwo : 1 < r.count) (hearly : a.draft.early = false) (e : Event) :
    let t := (a.note e).endRun.strand
    StartAlike 0 a.strand t r.calls ∧
      ∀ k, 2 ≤ (rowsAt s r (k + 1)).length → ∃ g, a.arguments[k]? = some g ∧
        let u := ((a.note e).finishedTo (k + 1)).strand
        if g.alignRight then EndAlike u t (rowsAt s r (k + 1))
        else StartAlike (if st.alignOnTabStop then st.outputTabSize else 0) u t (rowsAt s r (k + 1)) := by
  obtain ⟨hlinked, hlevel⟩ := level_of_read hts hs
  obtain ⟨taken, -, hsteps⟩ := exists_steps_visits st hlinked his
  have hwhole := whole_visits s (Int.le_of_eq hthreshold) is
  rw [← ha] at hsteps hwhole
  have hgathered : Gathered s (Runs st s) (a.stage taken) :=
    hsteps.invariant (fun _ _ h hstep => h.step hlinked hlevel hstep) (gathered_start st s)
  have hpassed : ∀ g ∈ a.calls :: a.arguments, g.passed = [] :=
    List.forall_mem_cons.2 ⟨hwhole.calls.passed_eq, fun g hg => (hwhole.arguments g hg).passed_eq⟩
  have hposition : ∀ p, 2 ≤ (rowsAt s r p).length → ∃ g, (a.calls :: a.arguments)[p]? = some g ∧ rowsAt s r p ≠ [] ∧
      g.pending.map (·.lexeme) = (rowsAt s r p).reverse.map some ∧
        ∀ i ∈ rowsAt s r p, (g.alignment ((a.note e).finishedTo p).strand).edge (a.note e).endRun.strand (some i) =
          (g.alignment ((a.note e).finishedTo p).strand).target := by
    intro p hp
    have hne : rowsAt s r p ≠ [] := by
      rintro hnil
      rw [hnil] at hp
      cases hp
    obtain ⟨g, hg, hnone, hrows⟩ := hwhole.exists_group hr hearly hne
    refine ⟨g, hg, hne, (rows_of_passed_nil hnone).symm.trans hrows, fun i hi => ?_⟩
    refine edge_endRun (a := a.note e) hlinked hwhole.recolumned hgathered.leads (fun c hc c' hc' => hgathered.depth_eq hc hc')
      hpassed hgathered.rows hg ?_ (some i) ?_
    · rwa [hrows, List.length_map, List.length_reverse]
    · rw [hrows]
      exact List.mem_map_of_mem (List.mem_reverse.2 hi)
  refine ⟨?_, fun k hk => ?_⟩
  · have hnames : rowsAt s r 0 = r.calls := List.filterMap_some
    obtain ⟨g, hg, hne, hrows, hedge⟩ := hposition 0 (by rwa [hnames])
    obtain rfl := Option.some.inj hg
    rw [hnames] at hne hrows hedge
    have halike := startAlike_of_edge hwhole.left hrows hne hedge
    rw [hwhole.calls.tabStop_eq] at halike
    exact halike
  · obtain ⟨g, hg, hne, hrows, hedge⟩ := hposition (k + 1) hk
    rw [List.getElem?_cons_succ] at hg
    refine ⟨g, hg, ?_⟩
    dsimp only
    cases hright : g.alignRight with
    | true => exact endAlike_of_edge hright hrows hne hedge
    | false =>
      have halike := startAlike_of_edge hright hrows hne hedge
      rw [(hwhole.arguments g (List.mem_of_getElem? hg)).tabStop_eq] at halike
      exact halike

namespace FinishedAux

/-- Two calls with a number and a name as arguments. -/
def callTokens : List Token :=
  [⟨0, .text, Text.ofString "\n"⟩, ⟨1, .name, Text.ofString "f"⟩, ⟨2, .punctuation, Text.ofString "("⟩,
    ⟨3, .number, Text.ofString "1"⟩, ⟨4, .punctuation, Text.ofString ","⟩, ⟨5, .name, Text.ofString "a"⟩,
    ⟨6, .punctuation, Text.ofString ")"⟩, ⟨7, .punctuation, Text.ofString ";"⟩, ⟨8, .text, Text.ofString "\n"⟩,
    ⟨9, .text, Text.ofString "  "⟩, ⟨11, .name, Text.ofString "f"⟩, ⟨12, .punctuation, Text.ofString "("⟩,
    ⟨13, .number, Text.ofString "22"⟩, ⟨15, .punctuation, Text.ofString ","⟩, ⟨16, .name, Text.ofString "b"⟩,
    ⟨17, .punctuation, Text.ofString ")"⟩, ⟨18, .punctuation, Text.ofString ";"⟩]

/-- The source that they are cut from. -/
def callSource : Source := { text := callTokens.flatMap (·.text) }

/-- Numbers are aligned right, everything else at tab stops. -/
def tabbed : Style := { alignNumbersRight := true, alignOnTabStop := true, outputTabSize := 4 }

/-- The state behind the last lexeme, with the run of both calls. -/
def behind : CallAligner := (callSource.read callTokens).order.foldl visit (start tabbed (callSource.read callTokens))

/-- The strand when the run has ended. -/
def ended : Strand := (behind.note (.sourceEnded 2)).endRun.strand

end FinishedAux

open FinishedAux in
/-- The calls get the column of the second one, the numbers end in one column, and the names stand at the next tab stop. -/
theorem aligned_endRun_callSource :
    StartAlike 0 behind.strand ended [9, 1] ∧
      EndAlike ((behind.note (.sourceEnded 2)).finishedTo 1).strand ended [11, 3] ∧
        StartAlike 4 ((behind.note (.sourceEnded 2)).finishedTo 2).strand ended [13, 5] ∧
          [9, 1, 11, 3, 13, 5].map ended.columnAt = [3, 3, 5, 6, 9, 9] := by
  obtain ⟨hcalls, harguments⟩ := aligned_endRun tabbed (show callSource.Legible callTokens by decide +kernel) (.inl rfl) rfl
    List.prefix_rfl (a := behind) rfl (r := ⟨Text.ofString "f", 0, 0, [9, 1]⟩) (by decide +kernel) (by decide) (by decide +kernel)
    (.sourceEnded 2)
  have hmodes : behind.arguments.map (·.alignRight) = [true, false] := by decide +kernel
  have hmode : ∀ {k : Nat} {g : ColumnGroup}, behind.arguments[k]? = some g → [true, false][k]? = some g.alignRight := fun hg => by
    rw [← hmodes, List.getElem?_map, hg]
    rfl
  have hrows : rowsAt (callSource.read callTokens) ⟨Text.ofString "f", 0, 0, [9, 1]⟩ 1 = [11, 3] ∧
      rowsAt (callSource.read callTokens) ⟨Text.ofString "f", 0, 0, [9, 1]⟩ 2 = [13, 5] := by decide +kernel
  have hnumbers := harguments 0
  have hnames := harguments 1
  rw [hrows.1] at hnumbers
  rw [hrows.2] at hnames
  obtain ⟨g, hg, hnumbers⟩ := hnumbers (Nat.le_refl 2)
  obtain ⟨g', hg', hnames⟩ := hnames (Nat.le_refl 2)
  have hright : g.alignRight = true := (Option.some.inj (hmode hg)).symm
  have hleft : g'.alignRight = false := (Option.some.inj (hmode hg')).symm
  rw [hright] at hnumbers
  rw [hleft] at hnames
  exact ⟨hcalls, hnumbers, hnames, by decide +kernel⟩

end CallAligner

end CodeGroom
