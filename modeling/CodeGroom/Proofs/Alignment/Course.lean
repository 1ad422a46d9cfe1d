import CodeGroom.Proofs.Alignment.Rounds
import Mathlib.Logic.Function.Basic
import Mathlib.Logic.Relation

/-!
# The course of an alignment

Apart from which rows come together, aligning calls goes like this. Calls that lead lines are taken up one by one, into the
current run or into a new one, and each offers its rows to the pools of their positions. From a pool at least two rows are aligned
at a time: while a run goes on, because the span is exceeded; when it ends, pool after pool by position.
-/

namespace CodeGroom

/-- Where an alignment has got to: the calls taken up so far, the current run, the position of the pool that is being finished if
the run is ending, the strand with what was reported, and the rows that wait at each position. -/
structure Stage where
  taken : List Nat
  run? : Option CallRun
  finishing : Option Nat
  draft : Draft
  pool : Nat → List (Option Nat)

namespace Stage

/-- The calls of the current run. -/
def calls (x : Stage) : List Nat := (x.run?.map (·.calls)).getD []

/-- The row that a call offers to the pool of a position, if it has one. -/
def offer (s : Strand) (call p : Nat) : List (Option Nat) := ((s.rowsOf call)[p]?).toList.map some

variable {s : Strand} {ran : CallRun → Prop} {x y z : Stage}

/-- One step on the way. `ran` tells the runs that there are. -/
inductive Step (s : Strand) (ran : CallRun → Prop) : Stage → Stage → Prop where
  | note {x : Stage} (e : Event) : e.alignment? = none → Step s ran x { x with draft := x.draft.note e }
  | forget {x : Stage} (pool : Nat → List (Option Nat)) : (∀ p, (pool p).Subperm (x.pool p)) → Step s ran x { x with pool }
  | align {x : Stage} {p : Nat} {rest : List (Option Nat)} {m : Alignment} {e : Event} :
      e.alignment? = some m → 2 ≤ m.rows.length → (x.pool p).Perm (m.rows ++ rest) → m.Reaches x.draft.strand →
      (x.finishing = some p ∨ x.finishing = none ∧ x.draft.trace.overdue = true) →
      Step s ran x { x with
        draft := ⟨m.place x.draft.strand, e :: x.draft.trace⟩, pool := Function.update x.pool p rest }
  | proceed {x : Stage} (p : Nat) : (∀ q, x.finishing = some q → q ≤ p) → Step s ran x { x with finishing := some p }
  | leave {x : Stage} : Step s ran x { x with run? := none, finishing := none, pool := fun _ => [] }
  | join {x : Stage} {call edge : Nat} {r : CallRun} :
      s.LeadsLine call → s.leftEdge (some call) = some edge → call ∉ x.taken → ran r → r.calls = call :: x.calls →
      ((x.run? = none ∧ r.depth = (s.lexeme (some edge)).depth) ∨
        ∃ r', x.run? = some r' ∧ r.depth = r'.depth ∧ r.depth = (s.lexeme (some call)).depth) →
      Step s ran x { x with taken := call :: x.taken, run? := some r, pool := fun p => x.pool p ++ offer s call p }

/-- Any number of steps. -/
abbrev Steps (s : Strand) (ran : CallRun → Prop) : Stage → Stage → Prop := Relation.ReflTransGen (Step s ran)

/-- What every step preserves, any number of steps preserves. -/
theorem Steps.invariant {P : Stage → Prop} (hstep : ∀ x y, P x → Step s ran x y → P y) (h : Steps s ran x y) (hx : P x) : P y := by
  induction h with
  | refl => exact hx
  | tail _ hlast ih => exact hstep _ _ ih hlast

/-- On the way only columns change. -/
theorem Steps.recolumned (h : Steps s ran x y) : Strand.Recolumned x.draft.strand y.draft.strand := by
  refine h.invariant (P := fun y => Strand.Recolumned x.draft.strand y.draft.strand) (fun y z hy hstep => ?_) (.refl _)
  cases hstep with
  | note e _ => exact hy
  | forget pool _ => exact hy
  | align _ _ _ _ _ => exact hy.trans (Alignment.recolumned_place _ _)
  | proceed p _ => exact hy
  | leave => exact hy
  | join _ _ _ _ _ _ => exact hy

/-! ## Calls and rows of a stage -/

/-- A row of one of some calls at a position. -/
def IsRow (s : Strand) (cs : List Nat) (p : Nat) (o : Option Nat) : Prop := ∃ c ∈ cs, ∃ i, o = some i ∧ s.RowAt c p i

theorem IsRow.mono {cs cs' : List Nat} {p : Nat} {o : Option Nat} (h : IsRow s cs p o) (hcs : cs ⊆ cs') : IsRow s cs' p o := by
  obtain ⟨c, hc, hrow⟩ := h
  exact ⟨c, hcs hc, hrow⟩

/-- Rows of leading calls at one position are apart if two of them on one line are the same. -/
theorem apart_of_isRow {cs : List Nat} {p : Nat} {is : List (Option Nat)} (hs : s.WellLinked) (hleads : ∀ c ∈ cs, s.LeadsLine c)
    (his : ∀ o ∈ is, IsRow s cs p o)
    (hsame : ∀ c ∈ cs, ∀ c' ∈ cs, ∀ i j, s.RowAt c p i → s.RowAt c' p j → s.lineOf i = s.lineOf j → i = j) :
    Alignment.Apart s is where
  onLine o ho := by
    obtain ⟨c, hc, i, rfl, hrow⟩ := his o ho
    exact ⟨i, rfl, hrow.mem_order hs (hleads c hc).mem, hrow.isNewline hs (hleads c hc)⟩
  eq_of_lineOf_eq i j hi hj hline := by
    obtain ⟨c, hc, i', hi', hrow⟩ := his _ hi
    obtain ⟨c', hc', j', hj', hrow'⟩ := his _ hj
    obtain rfl := Option.some.inj hi'
    obtain rfl := Option.some.inj hj'
    exact hsame c hc c' hc' i j hrow hrow' hline

theorem calls_of_run {r : CallRun} (h : x.run? = some r) : x.calls = r.calls := by rw [calls, h]; rfl

theorem calls_of_none (h : x.run? = none) : x.calls = [] := by rw [calls, h]; rfl

theorem mem_offer {c p : Nat} {o : Option Nat} : o ∈ offer s c p ↔ ∃ i, o = some i ∧ s.RowAt c p i := by
  simp [offer, Strand.RowAt, eq_comm, and_comm]

theorem length_offer_le (s : Strand) (c p : Nat) : (offer s c p).length ≤ 1 := by
  rw [offer, List.length_map]
  cases (s.rowsOf c)[p]? <;> simp

theorem nodup_offer (s : Strand) (c p : Nat) : (offer s c p).Nodup :=
  List.nodup_iff_sublist.2 fun o hsub => by
    have hle := hsub.length_le
    have hone := length_offer_le s c p
    simp only [List.length_cons, List.length_nil] at hle
    omega

/-- What waits behind the offers of a new call are rows of the calls with it. -/
theorem isRow_append_offer {call p : Nat} {o : Option Nat} (h : ∀ o ∈ x.pool p, IsRow s x.calls p o)
    (ho : o ∈ x.pool p ++ offer s call p) : IsRow s (call :: x.calls) p o := by
  rcases List.mem_append.1 ho with ho | ho
  · exact (h o ho).mono (List.subset_cons_self _ _)
  · exact ⟨call, List.mem_cons_self, mem_offer.1 ho⟩

/-- What is left of the pools behind an alignment. -/
theorem subperm_update {p : Nat} {rest : List (Option Nat)} {m : Alignment}
    (hperm : (x.pool p).Perm (m.rows ++ rest)) (q : Nat) :
    (Function.update x.pool p rest q).Subperm (x.pool q) := by
  by_cases hq : q = p
  · rw [hq, Function.update_self]
    exact (List.sublist_append_right m.rows rest).subperm.trans hperm.symm.subperm
  · rw [Function.update_of_ne hq]

/-! ## Pools as lists of groups -/

/-- The pools of some groups. -/
def poolOf (rows : List (List (Option Nat))) (p : Nat) : List (Option Nat) := (rows[p]?).getD []

theorem poolOf_at (l r : List (List (Option Nat))) (is : List (Option Nat)) : poolOf (l ++ is :: r) l.length = is := by
  simp [poolOf]

theorem update_poolOf (l r : List (List (Option Nat))) (is is' : List (Option Nat)) :
    Function.update (poolOf (l ++ is :: r)) l.length is' = poolOf (l ++ is' :: r) := by
  funext p
  by_cases hp : p = l.length
  · rw [hp, Function.update_self, poolOf_at]
  · rw [Function.update_of_ne hp, poolOf, poolOf]
    rcases Nat.lt_or_gt_of_ne hp with hlt | hgt
    · rw [List.getElem?_append_left hlt, List.getElem?_append_left hlt]
    · obtain ⟨n, rfl⟩ : ∃ n, p = l.length + (n + 1) := ⟨p - l.length - 1, by omega⟩
      rw [List.getElem?_append_right (by omega), List.getElem?_append_right (by omega), Nat.add_sub_cancel_left,
        List.getElem?_cons_succ, List.getElem?_cons_succ]

/-- What one group does to its rows takes steps. -/
theorem kept_steps (early : Bool) {l r : List (List (Option Nat))}
    (hx : x.finishing = if early then none else some l.length) :
    ColumnGroup.Kept early
      (fun d is => Steps s ran z { x with draft := d, pool := poolOf (l ++ is :: r) }) where
  note e he h := h.tail (.note e he)
  forget hsub h := by
    refine h.tail (.forget _ fun p => ?_)
    rw [← update_poolOf l r _ _]
    by_cases hp : p = l.length
    · rw [hp, Function.update_self]
      simpa [poolOf_at] using hsub
    · rw [Function.update_of_ne hp]
  align he hrows hperm hreach hcause h := by
    rw [← update_poolOf l r _ _]
    refine h.tail (.align he hrows ?_ hreach ?_)
    · simpa [poolOf_at] using hperm
    · cases early with
      | false => exact .inl hx
      | true => exact .inr ⟨hx, hcause rfl⟩

end Stage

namespace CallAligner

open Stage

variable {s : Strand} {ran : CallRun → Prop} {st : Style} {a : CallAligner} {x z : Stage} {d : Draft} {taken : List Nat}

/-- The rows of all column groups: those of the calls, then those of the arguments by position. -/
def groupRows (a : CallAligner) : List (List (Option Nat)) := (a.calls :: a.arguments).map (·.rows)

/-- Where an aligner has got to when some calls have been taken up. -/
def stage (a : CallAligner) (taken : List Nat) : Stage := ⟨taken, a.run?, none, a.draft, poolOf a.groupRows⟩

/-- A run that there is at some point while the calls of a strand are aligned. -/
def Runs (st : Style) (s : Strand) (r : CallRun) : Prop := ∃ is, is <+: s.order ∧ (is.foldl visit (start st s)).run? = some r

/-! ## Line breaks and the end of a run -/

/-- Counting lines in some groups, the ones in front of them being done with. -/
theorem steps_mapGroups_newLines (count : Int) (gs : List ColumnGroup) (l : List (List (Option Nat)))
    (hx : x.finishing = none) (h : Steps s ran z { x with draft := d, pool := poolOf (l ++ gs.map (·.rows)) }) :
    Steps s ran z { x with
      draft := (mapGroups (fun d g => g.newLines d count) d gs).1
      pool := poolOf (l ++ (mapGroups (fun d g => g.newLines d count) d gs).2.map (·.rows)) } := by
  induction gs generalizing d l with
  | nil => exact h
  | cons g gs ih =>
    have hgroup : Steps s ran z { x with
        draft := (g.newLines d count).1, pool := poolOf (l ++ (g.newLines d count).2.rows :: gs.map (·.rows)) } :=
      ColumnGroup.newLines_keeps (kept_steps true hx) count h
    have hrest := ih (l ++ [(g.newLines d count).2.rows]) (by simpa using hgroup)
    simpa [mapGroups] using hrest

theorem steps_newLines (count : Int) (h : Steps s ran z (a.stage taken)) : Steps s ran z ((a.newLines count).stage taken) := by
  have harguments := steps_mapGroups_newLines (x := a.stage taken) count a.arguments [a.calls.rows] rfl h
  exact ColumnGroup.newLines_keeps (P := fun d is => Steps s ran z { a.stage taken with
    draft := d, pool := poolOf ([] ++ is :: (mapGroups (fun d g => g.newLines d count) a.draft a.arguments).2.map (·.rows)) })
    (kept_steps true rfl) count harguments

/-- Finishing some groups by position, the ones in front of them being done with. -/
theorem steps_mapGroups_finish (gs : List ColumnGroup) (l : List (List (Option Nat))) {q : Nat} (hq : q ≤ l.length)
    (h : Steps s ran z { x with finishing := some q, draft := d, pool := poolOf (l ++ gs.map (·.rows)) }) :
    ∃ q', Steps s ran z { x with
      finishing := some q'
      draft := (mapGroups (fun d g => g.finish d) d gs).1
      pool := poolOf (l ++ (mapGroups (fun d g => g.finish d) d gs).2.map (·.rows)) } := by
  induction gs generalizing d l q with
  | nil => exact ⟨q, h⟩
  | cons g gs ih =>
    have hproceed : Steps s ran z { x with
        finishing := some l.length, draft := d, pool := poolOf (l ++ g.rows :: gs.map (·.rows)) } :=
      h.tail (.proceed l.length fun q' heq => Option.some.inj heq ▸ hq)
    have hgroup := ColumnGroup.finish_keeps (P := fun d is => Steps s ran z { x with
      finishing := some l.length, draft := d, pool := poolOf (l ++ is :: gs.map (·.rows)) })
      (kept_steps (x := { x with finishing := some l.length }) false rfl) hproceed
    obtain ⟨q', hrest⟩ := ih (l ++ [(g.finish d).2.rows]) (q := l.length) (by simp) (by simpa using hgroup)
    exact ⟨q', by simpa [mapGroups] using hrest⟩

/-- When a run ends, its pools are finished by position and none of its rows is kept. -/
theorem steps_endRun (h : Steps s ran z (a.stage taken)) : Steps s ran z (a.endRun.stage taken) := by
  have hcalls := ColumnGroup.finish_keeps (P := fun d is => Steps s ran z { a.stage taken with
    finishing := some 0, draft := d, pool := poolOf ([] ++ is :: a.arguments.map (·.rows)) })
    (kept_steps (x := { a.stage taken with finishing := some 0 }) false rfl)
    (h.tail (.proceed 0 fun q heq => by cases heq))
  obtain ⟨q, hall⟩ := steps_mapGroups_finish (x := a.stage taken) a.arguments [(a.calls.finish a.draft).2.rows] (Nat.zero_le 1)
    hcalls
  have hleft := hall.tail .leave
  have hempty : (fun _ => []) = poolOf a.endRun.groupRows := by
    funext p
    have hrows : (a.calls.finish a.draft).2.rows = [] := ColumnGroup.rows_finish _ _
    show [] = poolOf [(a.calls.finish a.draft).2.rows] p
    rw [hrows]
    cases p <;> rfl
  rw [hempty] at hleft
  exact hleft

/-- Counting lines changes columns only. -/
theorem recolumned_newLines (count : Int) (a : CallAligner) : Strand.Recolumned a.strand (a.newLines count).strand := by
  have hrefl : Steps a.strand (fun _ => True) (a.stage []) (a.stage []) := .refl
  exact (steps_newLines count hrefl).recolumned

/-- The end of a run changes columns only. -/
theorem recolumned_endRun (a : CallAligner) : Strand.Recolumned a.strand a.endRun.strand := by
  have hrefl : Steps a.strand (fun _ => True) (a.stage []) (a.stage []) := .refl
  exact (steps_endRun hrefl).recolumned

/-! ## Calls -/

/-- The rows of groups when a row was offered to each of the first ones, in new groups where there are too few. -/
def offered : List (List (Option Nat)) → List Nat → List (List (Option Nat))
  | l, [] => l
  | [], i :: is => [some i] :: offered [] is
  | rows :: l, i :: is => (rows ++ [some i]) :: offered l is

theorem poolOf_offered (l : List (List (Option Nat))) (is : List Nat) (p : Nat) :
    poolOf (offered l is) p = poolOf l p ++ (is[p]?).toList.map some := by
  induction l, is using offered.induct generalizing p with
  | case1 l => simp [offered]
  | case2 i is ih =>
    cases p with
    | zero => rfl
    | succ p =>
      have hrest := ih p
      simpa [offered, poolOf] using hrest
  | case3 rows l i is ih =>
    cases p with
    | zero => simp [offered, poolOf]
    | succ p =>
      have hrest := ih p
      simpa [offered, poolOf] using hrest

/-- Taking in a row that was offered. -/
theorem steps_add (g : ColumnGroup) (i : Nat) (l r : List (List (Option Nat))) (hx : x.finishing = none)
    (h : Steps s ran z { x with draft := d, pool := poolOf (l ++ (g.rows ++ [some i]) :: r) }) :
    Steps s ran z { x with draft := (g.add d (some i)).1, pool := poolOf (l ++ (g.add d (some i)).2.rows :: r) } := by
  have hadd := ColumnGroup.addRow_keeps (P := fun d is => Steps s ran z { x with draft := d, pool := poolOf (l ++ is :: r) })
    (kept_steps true hx) ⟨some i, g.lineCount⟩ [] h
  rw [List.append_nil] at hadd
  exact hadd

/-- Taking in the arguments of a call that were offered. -/
theorem steps_addArguments (gs : List ColumnGroup) (is : List Nat) (l : List (List (Option Nat))) (hx : x.finishing = none)
    (h : Steps s ran z { x with draft := d, pool := poolOf (l ++ offered (gs.map (·.rows)) is) }) :
    Steps s ran z { x with
      draft := (a.addArguments d gs is).1, pool := poolOf (l ++ (a.addArguments d gs is).2.map (·.rows)) } := by
  induction is generalizing d gs l with
  | nil =>
    have hnone : offered (gs.map (·.rows)) [] = gs.map (·.rows) := by cases gs <;> rfl
    rw [hnone] at h
    cases gs <;> exact h
  | cons i is ih =>
    cases gs with
    | nil =>
      have hadd := steps_add (a.freshGroup i) i l (offered [] is) hx h
      have hrest := ih [] (l ++ [((a.freshGroup i).add d (some i)).2.rows]) (by simpa using hadd)
      simpa [addArguments] using hrest
    | cons g gs =>
      have hadd := steps_add g i l (offered (gs.map (·.rows)) is) hx h
      have hrest := ih gs (l ++ [(g.add d (some i)).2.rows]) (by simpa using hadd)
      simpa [addArguments] using hrest

/-- Taking in a call whose rows were offered. -/
theorem steps_addCall {call : Nat} (harguments : a.strand.argumentStarts (some call) = s.argumentStarts (some call))
    (h : Steps s ran z { a.stage taken with pool := fun p => poolOf a.groupRows p ++ offer s call p }) :
    Steps s ran z ((a.addCall call).stage taken) := by
  have hpool : (fun p => poolOf a.groupRows p ++ offer s call p) =
      poolOf ([] ++ (a.calls.rows ++ [some call]) :: offered (a.arguments.map (·.rows)) (s.argumentStarts (some call))) := by
    funext p
    exact (poolOf_offered a.groupRows (s.rowsOf call) p).symm
  rw [hpool] at h
  have hcall := steps_add (x := a.stage taken) a.calls call [] (offered (a.arguments.map (·.rows)) (s.argumentStarts (some call)))
    rfl h
  have hall := steps_addArguments (x := a.stage taken) (a := a) a.arguments (s.argumentStarts (some call))
    [(a.calls.add a.draft (some call)).2.rows] rfl hcall
  rw [← harguments] at hall
  exact hall

/-- A call joins the current run, or a new one. -/
theorem steps_join {call edge : Nat} {r : CallRun} (e : Event) (he : e.alignment? = none)
    (hstrand : Strand.Recolumned s a.strand) (hcall : s.LeadsLine call) (hedge : s.leftEdge (some call) = some edge)
    (htaken : call ∉ taken) (hran : ran r) (hcalls : r.calls = call :: (a.stage taken).calls)
    (hdepth : (a.run? = none ∧ r.depth = (s.lexeme (some edge)).depth) ∨
      ∃ r', a.run? = some r' ∧ r.depth = r'.depth ∧ r.depth = (s.lexeme (some call)).depth)
    (h : Steps s ran z (a.stage taken)) :
    Steps s ran z ((({ a with run? := some r }.note e).addCall call).stage (call :: taken)) := by
  have harguments : ({ a with run? := some r }.note e).strand.argumentStarts (some call) = s.argumentStarts (some call) :=
    hstrand.argumentStarts_eq (some call)
  have hjoined := (h.tail (.join hcall hedge htaken hran hcalls hdepth)).tail (.note e he)
  exact steps_addCall harguments hjoined

/-! ## Visits -/

/-- A visit of a call takes steps, and takes up at most that call. -/
theorem steps_visitCall {call : Nat} (hcall : call ∈ s.order) (hkind : (s.lexeme (some call)).kind = .callName)
    (hstrand : Strand.Recolumned s z.draft.strand) (htaken : call ∉ taken) (hran : ∀ r, (a.visitCall call).run? = some r → ran r)
    (h : Steps s ran z (a.stage taken)) :
    ∃ taken', (∀ c ∈ taken', c = call ∨ c ∈ taken) ∧ Steps s ran z ((a.visitCall call).stage taken') := by
  have ha : Strand.Recolumned s a.strand := hstrand.trans h.recolumned
  have hedges := ha.leftEdge_eq (some call)
  unfold visitCall at hran ⊢
  cases hedge : a.strand.leftEdge (some call) with
  | none => exact ⟨taken, fun _ hc => .inr hc, h⟩
  | some edge =>
    rw [hedge] at hran hedges
    have hleads : s.LeadsLine call := ⟨hcall, hkind, by rw [← hedges]; rfl⟩
    have hjoins : ∀ c ∈ call :: taken, c = call ∨ c ∈ taken := fun _ hc => List.mem_cons.1 hc
    dsimp only at hran ⊢
    cases hrun : a.run? with
    | none =>
      rw [hrun] at hran
      refine ⟨call :: taken, hjoins, ?_⟩
      refine steps_join _ rfl ha hleads hedges.symm htaken (hran _ rfl) ?_ (.inl ⟨hrun, ha.depth_eq _⟩) h
      rw [Stage.calls, stage, hrun]
      rfl
    | some r =>
      rw [hrun] at hran
      dsimp only at hran ⊢
      split_ifs at hran ⊢ with hsame
      · refine ⟨call :: taken, hjoins, ?_⟩
        refine steps_join _ rfl ha hleads hedges.symm htaken (hran _ rfl) ?_
          (.inr ⟨r, hrun, rfl, hsame.2.1.trans (ha.depth_eq _)⟩) h
        rw [Stage.calls, stage, hrun]
        rfl
      · have hended : Steps s ran z (((a.note (.runEnded (a.strand.qualifiedName edge call)
            (a.strand.lexeme (some call)).line r.count r.name)).endRun).stage taken) :=
          steps_endRun (h.tail (.note _ rfl))
        have ha' := hstrand.trans hended.recolumned
        exact ⟨call :: taken, hjoins, steps_join _ rfl ha' hleads hedges.symm htaken (hran _ rfl) rfl
          (.inl ⟨rfl, ha'.depth_eq _⟩) hended⟩

/-- A visit of a lexeme takes steps. -/
theorem steps_visit {i : Nat} (hi : i ∈ s.order) (hstrand : Strand.Recolumned s z.draft.strand) (htaken : i ∉ taken)
    (hran : ∀ r, (a.visit i).run? = some r → ran r) (h : Steps s ran z (a.stage taken)) :
    ∃ taken', (∀ c ∈ taken', c = i ∨ c ∈ taken) ∧ Steps s ran z ((a.visit i).stage taken') := by
  have ha : Strand.Recolumned s a.strand := hstrand.trans h.recolumned
  unfold visit at hran ⊢
  dsimp only at hran ⊢
  split_ifs at hran ⊢ with hkind hnewline
  · exact steps_visitCall hi ((ha.kind_eq _).symm.trans hkind) hstrand htaken hran h
  · exact ⟨taken, fun _ hc => .inr hc, steps_newLines _ h⟩
  · refine ⟨taken, fun _ hc => .inr hc, ?_⟩
    cases hrun : a.run? with
    | none => exact h
    | some r =>
      dsimp only
      split_ifs
      · exact steps_endRun (h.tail (.note _ rfl))
      · exact h

/-- The end of the source takes steps, and discards what is left. -/
theorem steps_close (h : Steps s ran z (a.stage taken)) : ∃ x, Steps s ran z x ∧ x.draft = a.close.draft := by
  unfold close
  cases hrun : a.run? with
  | none => exact ⟨_, h, rfl⟩
  | some r =>
    dsimp only
    split_ifs
    · exact ⟨_, steps_endRun (h.tail (.note _ rfl)), rfl⟩
    · exact ⟨_, h, rfl⟩

/-- Visiting the first lexemes of a strand takes steps from where nothing has been taken up. -/
theorem exists_steps_visits (st : Style) (hs : s.WellLinked) {is : List Nat} (his : is <+: s.order) :
    ∃ taken, (∀ c ∈ taken, c ∈ is) ∧ Steps s (Runs st s) ((start st s).stage []) ((is.foldl visit (start st s)).stage taken) := by
  induction is using List.reverseRecOn with
  | nil => exact ⟨[], by simp, .refl⟩
  | append_singleton is i ih =>
    obtain ⟨taken, htaken, hsteps⟩ := ih ((List.prefix_append is [i]).trans his)
    have hnodup : (is ++ [i]).Nodup := hs.nodup.sublist his.sublist
    have hi : i ∉ taken := fun hmem =>
      List.disjoint_of_nodup_append hnodup (htaken i hmem) (List.mem_singleton_self i)
    rw [List.foldl_concat]
    have hran : ∀ r, ((is.foldl visit (start st s)).visit i).run? = some r → Runs st s r := fun r hr =>
      ⟨is ++ [i], his, by rwa [List.foldl_concat]⟩
    obtain ⟨taken', htaken', hsteps'⟩ := steps_visit (his.subset (by simp)) (.refl s) hi hran hsteps
    refine ⟨taken', fun c hc => ?_, hsteps'⟩
    rcases htaken' c hc with rfl | hc
    · simp
    · exact List.mem_append_left _ (htaken c hc)

/-- Aligning the calls of a strand takes steps from where nothing has been taken up. -/
theorem exists_steps_align (st : Style) (hs : s.WellLinked) :
    ∃ x, Steps s (Runs st s) ((start st s).stage []) x ∧ x.draft = (align st s).draft := by
  obtain ⟨taken, -, hsteps⟩ := exists_steps_visits st hs List.prefix_rfl
  exact steps_close hsteps

/-- Aligning the calls of a strand moves lexemes to other columns and does nothing else. -/
theorem recolumned_align (st : Style) (hs : s.WellLinked) : Strand.Recolumned s (align st s).strand := by
  obtain ⟨x, hsteps, hdraft⟩ := exists_steps_align st hs
  have hrecolumned := hsteps.recolumned
  rw [hdraft] at hrecolumned
  exact hrecolumned

end CallAligner

end CodeGroom
