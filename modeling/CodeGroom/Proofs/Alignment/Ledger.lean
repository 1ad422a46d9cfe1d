import CodeGroom.Proofs.Alignment.Rounds
import Mathlib.Data.List.Chain
import Mathlib.Data.List.Sort

/-!
# What becomes of the rows of a column group

An account follows a column group through the calls that it gets and notes for every row what becomes of it, and for every row that
is admitted the column that it has then. The rounds in which rows are offered again are told without a bound, by relations; the
functions reach what these reach, so the bound of the functions is never met before the rounds end.
-/

namespace CodeGroom

/-- A row and the column that it had when it was admitted. -/
structure Admission where
  row : Row
  column : Int
deriving DecidableEq, Repr

/-- A column group and what has become of the rows added to it, the newest first: all that were added, those admitted that are
still pending, the sets that were applied, and the rows discarded. -/
structure Account where
  draft : Draft
  group : ColumnGroup
  added : List Row := []
  admitted : List Admission := []
  sets : List (List Admission) := []
  discarded : List Row := []

/-- What is asked of a column group: to take in a lexeme, at the current line or at another one, to count lines, to forget all rows
or to apply them. -/
inductive ColumnGroup.Call where
  | add (i : Option Nat) (stamp? : Option Int)
  | newLines (count : Int)
  | discard
  | finish

open ColumnGroup (Call)

/-- What a column group does about a call. -/
def ColumnGroup.answer (d : Draft) (g : ColumnGroup) : Call → Draft × ColumnGroup
  | .add i none => g.add d i
  | .add i (some stamp) => g.addRow d ⟨i, stamp⟩
  | .newLines count => g.newLines d count
  | .discard => (d, g.discard)
  | .finish => g.finish d

/-- A column group behind some calls. Each call finds a strand as it may have become in the meantime. -/
def ColumnGroup.answers (g : ColumnGroup) (calls : List (Draft × Call)) : ColumnGroup :=
  calls.foldl (fun g (d, call) => (g.answer d call).2) g

/-- The lexeme that a call adds. -/
def ColumnGroup.Call.lexeme? : Call → Option (Option Nat)
  | .add i _ => some i
  | _ => none

/-- Along some numbers none is more than `n` larger than the one before it. -/
def Gapless (n : Int) (columns : List Int) : Prop := columns.IsChain fun a b => b ≤ a + n

/-- The columns of some rows, in their order of size. -/
def sortedColumns (set : List Admission) : List Int := (set.map (·.column)).insertionSort (· ≤ ·)

namespace Account

variable {x y z : Account} {n threshold count : Int} {rest : List Row} {row : Row}

/-! ## How an account is kept -/

/-- A row is taken in, with its column, or passed over. -/
def offerRow (x : Account) (row : Row) : Account :=
  let column := (x.draft.strand.lexeme row.lexeme).column
  { x with
    draft := (x.group.addRow x.draft row).1
    group := (x.group.addRow x.draft row).2
    admitted := if x.group.tooFar column then x.admitted else ⟨row, column⟩ :: x.admitted }

/-- The rows passed over are offered again. -/
def offer (x : Account) : Account := x.group.passed.foldl offerRow { x with group := x.group.takePassed }

/-- The pending rows are applied. -/
def apply (x : Account) : Account :=
  { x with
    draft := (x.group.apply x.draft).1
    group := (x.group.apply x.draft).2
    admitted := []
    sets := x.admitted :: x.sets }

/-- The pending rows are applied because they are overdue. -/
def applyEarly (x : Account) : Account :=
  { x with draft := x.draft.note (.spanExceeded x.group.span x.group.pending.length) }.apply

/-- Lines go by. -/
def passLines (count : Int) (x : Account) : Account :=
  { x with group := { x.group with lineCount := x.group.lineCount + count } }

/-- All rows are forgotten. -/
def discard (x : Account) : Account :=
  { x with
    group := x.group.discard
    admitted := []
    discarded := x.group.pending ++ x.group.passed ++ x.discarded }

/-- Counting lines. Overdue rows are applied, and what was passed over is offered again and counts no line. -/
inductive Counts : Int → Account → Account → Prop where
  | idle {x : Account} {count : Int} : x.group.pending = [] → Counts count x x
  | inTime {x : Account} {count : Int} :
      x.group.pending ≠ [] → (x.passLines count).group.overdue = false → Counts count x (x.passLines count)
  | late {x : Account} {count : Int} :
      x.group.pending ≠ [] → (x.passLines count).group.overdue = true → x.group.passed = [] →
      Counts count x (x.passLines count).applyEarly
  | again {x y : Account} {count : Int} :
      x.group.pending ≠ [] → (x.passLines count).group.overdue = true → x.group.passed ≠ [] →
      Counts 0 (x.passLines count).applyEarly.offer y → Counts count x y

/-- Applying what was passed over, set by set. -/
inductive Drains : Account → Account → Prop where
  | done {x : Account} : x.group.passed = [] → Drains x x
  | round {x y z : Account} : x.group.passed ≠ [] → Counts 0 x.offer y → Drains y.apply z → Drains x z

/-- What a call does to an account. -/
inductive Serves : Call → Account → Account → Prop where
  | add {x : Account} (i : Option Nat) (stamp? : Option Int) :
      Serves (.add i stamp?) x
        ({ x with added := ⟨i, stamp?.getD x.group.lineCount⟩ :: x.added }.offerRow ⟨i, stamp?.getD x.group.lineCount⟩)
  | newLines {x y : Account} {count : Int} : Counts count x y → Serves (.newLines count) x y
  | discard {x : Account} : Serves .discard x x.discard
  | finish {x y : Account} : Drains x.apply y → Serves .finish x y

/-- What calls do to an account, one after another. -/
inductive Follows : List (Draft × Call) → Account → Account → Prop where
  | nil {x : Account} : Follows [] x x
  | cons {x y z : Account} {d : Draft} {call : Call} {calls : List (Draft × Call)} :
      Serves call { x with draft := d } y → Follows calls y z → Follows ((d, call) :: calls) x z

/-! ## The rounds end -/

/-- Offering rows one after another adds them to the group. -/
theorem foldl_offerRow (rows : List Row) (x : Account) :
    ((rows.foldl offerRow x).draft, (rows.foldl offerRow x).group) = ColumnGroup.addRows x.draft x.group rows := by
  induction rows generalizing x with
  | nil => rfl
  | cons row rows ih => exact ih (x.offerRow row)

/-- Offering what was passed over takes it again. -/
theorem offer_eq (x : Account) :
    (x.offer.draft, x.offer.group) = ColumnGroup.addRows x.draft x.group.takePassed x.group.passed :=
  foldl_offerRow x.group.passed { x with group := x.group.takePassed }

@[simp] theorem pending_apply (x : Account) : x.apply.group.pending = [] := ColumnGroup.pending_apply _ _

@[simp] theorem passed_apply (x : Account) : x.apply.group.passed = x.group.passed := ColumnGroup.passed_apply _ _

@[simp] theorem pending_applyEarly (x : Account) : x.applyEarly.group.pending = [] := pending_apply _

@[simp] theorem passed_applyEarly (x : Account) : x.applyEarly.group.passed = x.group.passed := passed_apply _

@[simp] theorem passLines_zero (x : Account) : x.passLines 0 = x := by simp [passLines]

/-- A row that is too far off is passed over. -/
theorem offerRow_of_tooFar (h : x.group.tooFar (x.draft.strand.lexeme row.lexeme).column = true) :
    x.offerRow row =
      { x with draft := (x.group.addRow x.draft row).1, group := { x.group with passed := x.group.passed ++ [row] } } := by
  rw [offerRow, if_pos h, ColumnGroup.addRow, if_pos h]

/-- A row that is near is admitted. -/
theorem offerRow_of_near (h : x.group.tooFar (x.draft.strand.lexeme row.lexeme).column = false) :
    x.offerRow row =
      let column := (x.draft.strand.lexeme row.lexeme).column
      { x with
        group := { x.group with
          pending := x.group.pending ++ [row]
          lastStamp := max x.group.lastStamp row.stamp
          low := if x.group.pending.isEmpty then column else min x.group.low column
          high := if x.group.pending.isEmpty then column else max x.group.high column }
        admitted := ⟨row, column⟩ :: x.admitted } := by
  rw [offerRow, if_neg (ne_true_of_eq_false h), ColumnGroup.addRow, if_neg (ne_true_of_eq_false h)]

/-- What is offered joins the pending rows or is passed over, so pending rows stay. -/
theorem pending_foldl_offerRow (rows : List Row) (h : x.group.pending ≠ []) :
    (rows.foldl offerRow x).group.pending ≠ [] := by
  induction rows generalizing x with
  | nil => exact h
  | cons row rows ih =>
    refine ih ?_
    show (x.group.addRow x.draft row).2.pending ≠ []
    rcases ColumnGroup.addRow_cases x.draft x.group row with ⟨e, -, heq⟩ | ⟨g, heq, hpending, -⟩
    · rw [heq]
      exact h
    · rw [heq, hpending]
      simp

/-- Offering what was passed over to a group without pending rows leaves some row pending and fewer rows passed over. -/
theorem offer_progress (hpending : x.group.pending = []) (hpassed : x.group.passed ≠ []) :
    x.offer.group.pending ≠ [] ∧ x.offer.group.passed.length < x.group.passed.length := by
  constructor
  · obtain ⟨row, rows, hrows⟩ := List.exists_cons_of_ne_nil hpassed
    rw [offer, hrows, List.foldl_cons]
    refine pending_foldl_offerRow rows ?_
    simp [offerRow, ColumnGroup.addRow, ColumnGroup.tooFar, ColumnGroup.takePassed, hpending]
  · have hgroup : x.offer.group = (ColumnGroup.addRows x.draft x.group.takePassed x.group.passed).2 := congrArg Prod.snd x.offer_eq
    rw [hgroup]
    exact ColumnGroup.length_passed_addRows_takePassed x.draft hpending hpassed

/-- Where nothing was passed over nothing is taken again. -/
theorem retakeFor_of_passed_nil {d : Draft} {g : ColumnGroup} (h : g.passed = []) (n : Nat) :
    ColumnGroup.retakeFor n d g = (d, g) := by
  cases n with
  | zero => rfl
  | succ n => rw [ColumnGroup.retakeFor, if_pos h]

/-- Offering what was passed over, and counting no line after that, comes to an end, where the bounded rounds end. -/
theorem exists_counts_offer {n : Nat} (hpending : x.group.pending = []) (hpassed : x.group.passed ≠ [])
    (hn : x.group.passed.length ≤ n) :
    ∃ y, Counts 0 x.offer y ∧ (y.draft, y.group) = ColumnGroup.retakeFor n x.draft x.group := by
  induction n generalizing x with
  | zero => exact absurd (List.eq_nil_of_length_eq_zero (Nat.le_zero.1 hn)) hpassed
  | succ n ih =>
    obtain ⟨hadmitted, hfewer⟩ := offer_progress hpending hpassed
    rw [ColumnGroup.retakeFor, if_neg hpassed, ← offer_eq]
    dsimp only
    cases hoverdue : x.offer.group.overdue with
    | false =>
      rw [if_neg Bool.false_ne_true]
      have hcounts : Counts 0 x.offer (x.offer.passLines 0) := .inTime hadmitted (by rwa [passLines_zero])
      rw [passLines_zero] at hcounts
      exact ⟨x.offer, hcounts, rfl⟩
    | true =>
      rw [if_pos rfl]
      have hlate : (x.offer.passLines 0).group.overdue = true := by rwa [passLines_zero]
      by_cases hnone : x.offer.group.passed = []
      · have hcounts := Counts.late hadmitted hlate hnone
        rw [passLines_zero] at hcounts
        exact ⟨x.offer.applyEarly, hcounts, (retakeFor_of_passed_nil (by simpa using hnone) n).symm⟩
      · obtain ⟨y, hy, heq⟩ := ih (x := x.offer.applyEarly) (pending_applyEarly _) (by simpa using hnone)
          (by rw [passed_applyEarly]; omega)
        exact ⟨y, .again hadmitted hlate hnone (by rwa [passLines_zero]), heq⟩

/-- Counting lines comes to an end. -/
theorem exists_counts (count : Int) (x : Account) :
    ∃ y, Counts count x y ∧ (y.draft, y.group) = x.group.newLines x.draft count := by
  unfold ColumnGroup.newLines
  dsimp only
  by_cases hpending : x.group.pending = []
  · exact ⟨x, .idle hpending, by rw [hpending]; rfl⟩
  · rw [if_neg (by simpa using hpending)]
    cases hoverdue : (x.passLines count).group.overdue with
    | false => exact ⟨x.passLines count, .inTime hpending hoverdue, (if_neg (ne_true_of_eq_false hoverdue)).symm⟩
    | true =>
      rw [show ({ x.group with lineCount := x.group.lineCount + count } : ColumnGroup).overdue = true from hoverdue, if_pos rfl]
      by_cases hpassed : x.group.passed = []
      · refine ⟨_, .late hpending hoverdue hpassed, ?_⟩
        exact (retakeFor_of_passed_nil (by rw [passed_applyEarly]; exact hpassed) _).symm
      · obtain ⟨y, hy, heq⟩ := exists_counts_offer (x := (x.passLines count).applyEarly) (pending_applyEarly _)
          (by rw [passed_applyEarly]; exact hpassed) (Nat.le_refl _)
        exact ⟨y, .again hpending hoverdue hpassed hy, heq⟩

/-- Applying what was passed over comes to an end. -/
theorem exists_drains {n : Nat} (hpending : x.group.pending = []) (hn : x.group.passed.length ≤ n) :
    ∃ y, Drains x y ∧ (y.draft, y.group) = ColumnGroup.finishFor n x.draft x.group := by
  induction n generalizing x with
  | zero => exact ⟨x, .done (List.eq_nil_of_length_eq_zero (Nat.le_zero.1 hn)), rfl⟩
  | succ n ih =>
    unfold ColumnGroup.finishFor
    dsimp only
    by_cases hpassed : x.group.passed = []
    · exact ⟨x, .done hpassed, by rw [if_pos hpassed]⟩
    · rw [if_neg hpassed]
      obtain ⟨y, hy, heq⟩ := exists_counts_offer hpending hpassed (Nat.le_refl _)
      have hfewer := ColumnGroup.length_passed_retake x.draft hpending hpassed
      rw [ColumnGroup.retake, ← heq] at hfewer
      dsimp only at hfewer
      obtain ⟨z, hz, heq'⟩ := ih (x := y.apply) (pending_apply _) (by rw [passed_apply]; omega)
      refine ⟨z, .round hpassed hy hz, ?_⟩
      rw [heq', ColumnGroup.retake, ← heq]
      rfl

/-- Every call is served, as the column group answers it. -/
theorem exists_serves (call : Call) (x : Account) :
    ∃ y, Serves call x y ∧ (y.draft, y.group) = x.group.answer x.draft call := by
  cases call with
  | add i stamp? => exact ⟨_, .add i stamp?, by cases stamp? <;> rfl⟩
  | newLines count =>
    obtain ⟨y, hy, heq⟩ := exists_counts count x
    exact ⟨y, .newLines hy, heq⟩
  | discard => exact ⟨_, .discard, rfl⟩
  | finish =>
    obtain ⟨y, hy, heq⟩ := exists_drains (x := x.apply) (pending_apply x) (Nat.le_refl _)
    exact ⟨y, .finish hy, heq⟩

/-- Every sequence of calls can be followed. -/
theorem exists_follows (calls : List (Draft × Call)) (x : Account) :
    ∃ y, Follows calls x y ∧ y.group = x.group.answers calls := by
  induction calls generalizing x with
  | nil => exact ⟨x, .nil, rfl⟩
  | cons dc calls ih =>
    obtain ⟨y, hy, heq⟩ := exists_serves dc.2 { x with draft := dc.1 }
    obtain ⟨z, hz, heq'⟩ := ih y
    have hgroup : y.group = (x.group.answer dc.1 dc.2).2 := congrArg Prod.snd heq
    refine ⟨z, .cons hy hz, ?_⟩
    rw [heq', hgroup]
    rfl

/-! ## Columns of a set -/

/-- A number put where it belongs among sorted numbers keeps them gapless if it is neither far below nor far above them. -/
theorem gapless_orderedInsert {c : Int} {columns : List Int} (hsorted : columns.Pairwise (· ≤ ·)) (hgap : Gapless n columns)
    (hlow : ∀ b ∈ columns.head?, b ≤ c + n) (hhigh : columns ≠ [] → ∃ b ∈ columns, c ≤ b + n) :
    Gapless n (columns.orderedInsert (· ≤ ·) c) := by
  induction columns with
  | nil => exact List.isChain_singleton c
  | cons b columns ih =>
    by_cases hcb : c ≤ b
    · rw [List.orderedInsert_cons_of_le _ _ hcb]
      exact List.isChain_cons_cons.2 ⟨hlow b rfl, hgap⟩
    · obtain ⟨hleast, hsorted'⟩ := List.pairwise_cons.1 hsorted
      obtain ⟨hstep, hgap'⟩ := List.isChain_cons.1 hgap
      obtain ⟨near, hnear, hc⟩ := hhigh (List.cons_ne_nil _ _)
      have hrest := ih hsorted' hgap' (fun y hy => by have := hstep y hy; omega) fun hne => by
        obtain ⟨y, rest, rfl⟩ := List.exists_cons_of_ne_nil hne
        rcases List.mem_cons.1 hnear with rfl | hmem
        · exact ⟨y, List.mem_cons_self, by have := hleast y List.mem_cons_self; omega⟩
        · exact ⟨near, hmem, hc⟩
      rw [List.orderedInsert_of_not_le _ _ hcb]
      refine List.isChain_cons.2 ⟨fun y hy => ?_, hrest⟩
      -- Behind `b` comes the next number there was or `c` in front of it.
      cases columns with
      | nil =>
        cases List.mem_singleton.1 hnear
        cases Option.mem_some_iff.1 hy
        exact hc
      | cons first columns =>
        have hfirst := hstep first rfl
        by_cases hcf : c ≤ first
        · rw [List.orderedInsert_cons_of_le _ _ hcf] at hy
          cases Option.mem_some_iff.1 hy
          omega
        · rw [List.orderedInsert_of_not_le _ _ hcf] at hy
          cases Option.mem_some_iff.1 hy
          exact hfirst

/-- A row within reach of the columns of a gapless set joins it. -/
theorem gapless_sortedColumns_cons {set : List Admission} {low high : Int} (hgap : Gapless n (sortedColumns set))
    (hlow : (set.map (·.column)).min? = some low) (hhigh : (set.map (·.column)).max? = some high) {a : Admission}
    (hbelow : low ≤ a.column + n) (habove : a.column ≤ high + n) : Gapless n (sortedColumns (a :: set)) := by
  have hcons : sortedColumns (a :: set) = (sortedColumns set).orderedInsert (· ≤ ·) a.column := rfl
  have hsorted : (sortedColumns set).Pairwise (· ≤ ·) := List.pairwise_insertionSort _ _
  have hmem : ∀ {c}, c ∈ set.map (·.column) → c ∈ sortedColumns set := (List.mem_insertionSort _).2
  rw [hcons]
  refine gapless_orderedInsert hsorted hgap (fun b hb => ?_) fun _ => ⟨high, hmem (List.max?_mem hhigh), habove⟩
  obtain ⟨rest, hrest⟩ := List.head?_eq_some_iff.1 hb
  rw [hrest] at hsorted
  rcases List.mem_cons.1 (hrest ▸ hmem (List.min?_mem hlow)) with rfl | hlow
  · exact hbelow
  · exact Int.le_trans ((List.pairwise_cons.1 hsorted).1 low hlow) hbelow

/-! ## The balance -/

/-- The rows whose end is known, applied or discarded. -/
def settled (x : Account) : List Row := x.sets.flatten.map (·.row) ++ x.discarded

/-- An account in balance, with `rest` still to be offered: each row added is settled, pending, passed over or among the rest. The
range of the group is that of the columns of its pending rows, and no set, applied or pending, has a gap above the threshold. -/
structure Balanced (threshold : Int) (rest : List Row) (x : Account) : Prop where
  threshold_eq : x.group.threshold = threshold
  pending_eq : x.group.pending = (x.admitted.map (·.row)).reverse
  batches_eq : (x.group.closed.filter (·.applied)).map (·.rows) = x.sets.map fun set => (set.map (·.row)).reverse
  rows : x.added.Perm (x.settled ++ x.group.pending ++ x.group.passed ++ rest)
  range : x.admitted ≠ [] →
    (x.admitted.map (·.column)).min? = some x.group.low ∧ (x.admitted.map (·.column)).max? = some x.group.high
  gapless : 0 < threshold → ∀ set ∈ x.admitted :: x.sets, Gapless threshold (sortedColumns set)

/-- Rows are pending exactly while some are admitted. -/
theorem Balanced.pending_eq_nil (h : x.Balanced threshold rest) : x.group.pending = [] ↔ x.admitted = [] := by
  rw [h.pending_eq, List.reverse_eq_nil_iff, List.map_eq_nil_iff]

/-- The first of the rest is offered. -/
theorem Balanced.offerRow (h : x.Balanced threshold (row :: rest)) : (x.offerRow row).Balanced threshold rest := by
  cases hfar : x.group.tooFar (x.draft.strand.lexeme row.lexeme).column with
  | true =>
    rw [offerRow_of_tooFar hfar]
    refine ⟨h.threshold_eq, h.pending_eq, h.batches_eq, ?_, h.range, h.gapless⟩
    refine h.rows.trans (List.Perm.of_eq ?_)
    simp [settled]
  | false =>
    have hnear := hfar
    simp only [ColumnGroup.tooFar, Bool.and_eq_false_iff, decide_eq_false_iff_not, Bool.not_eq_false', Bool.or_eq_false_iff,
      List.isEmpty_iff, h.threshold_eq] at hnear
    rw [offerRow_of_near hfar]
    refine ⟨h.threshold_eq, ?_, h.batches_eq, ?_, fun _ => ?_, fun hpos set hset => ?_⟩
    · simp [h.pending_eq]
    · refine h.rows.trans ?_
      simp only [settled, List.append_assoc, List.singleton_append]
      exact List.Perm.append_left _ (List.Perm.append_left _ (List.Perm.append_left _ List.perm_middle))
    · by_cases hnone : x.admitted = []
      · simp [hnone, h.pending_eq_nil.2 hnone]
      · obtain ⟨hlow, hhigh⟩ := h.range hnone
        have hsome : x.group.pending.isEmpty = false := by simpa using mt h.pending_eq_nil.1 hnone
        simp [hsome, List.min?_cons, List.max?_cons, hlow, hhigh, Int.min_comm, Int.max_comm]
    · rcases List.mem_cons.1 hset with rfl | hset
      · by_cases hnone : x.admitted = []
        · rw [hnone]
          exact List.isChain_singleton _
        · obtain ⟨hlow, hhigh⟩ := h.range hnone
          have hreach := (hnear.resolve_left fun hor => hor.elim (absurd hpos) (fun he => hnone (h.pending_eq_nil.1 he)))
          exact gapless_sortedColumns_cons (h.gapless hpos _ List.mem_cons_self) hlow hhigh (by dsimp only; omega)
            (by dsimp only; omega)
      · exact h.gapless hpos set (List.mem_cons_of_mem _ hset)

/-- Offering rows keeps the account balanced. -/
theorem Balanced.foldl_offerRow {rows : List Row} (h : x.Balanced threshold (rows ++ rest)) :
    (rows.foldl Account.offerRow x).Balanced threshold rest := by
  induction rows generalizing x with
  | nil => exact h
  | cons row rows ih => exact ih h.offerRow

/-- What was passed over is offered again. -/
theorem Balanced.offer (h : x.Balanced threshold []) : x.offer.Balanced threshold [] := by
  have htaken : ({ x with group := x.group.takePassed } : Account).Balanced threshold (x.group.passed ++ []) := by
    refine ⟨h.threshold_eq, h.pending_eq, h.batches_eq, h.rows.trans (List.Perm.of_eq ?_), h.range, h.gapless⟩
    simp [settled, ColumnGroup.takePassed]
  exact htaken.foldl_offerRow

/-- The pending rows become an applied set. -/
theorem Balanced.apply (h : x.Balanced threshold rest) : x.apply.Balanced threshold rest := by
  have hgroup : x.apply.group = x.group.closeBatch true := by
    unfold Account.apply ColumnGroup.apply
    dsimp only
    split_ifs <;> rfl
  refine ⟨?_, ?_, ?_, ?_, fun hne => absurd rfl hne, fun hpos set hset => ?_⟩
  · rw [hgroup]
    exact h.threshold_eq
  · rw [hgroup]
    rfl
  · rw [hgroup]
    simp [ColumnGroup.closeBatch, Account.apply, h.batches_eq, h.pending_eq]
  · have hpending : x.group.pending.Perm (x.admitted.map (·.row)) := by
      rw [h.pending_eq]
      exact List.reverse_perm _
    rw [hgroup]
    refine h.rows.trans (List.Perm.append_right _ (List.Perm.append_right _ ?_))
    simp only [settled, Account.apply, ColumnGroup.closeBatch, List.flatten_cons, List.map_append, List.append_nil]
    refine List.perm_append_comm.trans ?_
    rw [List.append_assoc]
    exact hpending.append_right _
  · rcases List.mem_cons.1 hset with rfl | hset
    · exact List.isChain_nil
    · exact h.gapless hpos set hset

theorem Balanced.applyEarly (h : x.Balanced threshold rest) : x.applyEarly.Balanced threshold rest :=
  Balanced.apply (x := { x with draft := _ }) ⟨h.threshold_eq, h.pending_eq, h.batches_eq, h.rows, h.range, h.gapless⟩

theorem Balanced.passLines (h : x.Balanced threshold rest) (count : Int) : (x.passLines count).Balanced threshold rest :=
  ⟨h.threshold_eq, h.pending_eq, h.batches_eq, h.rows, h.range, h.gapless⟩

/-- The rows that are forgotten are discarded. -/
theorem Balanced.discard (h : x.Balanced threshold []) : x.discard.Balanced threshold [] := by
  refine ⟨h.threshold_eq, rfl, ?_, ?_, fun hne => absurd rfl hne, fun hpos set hset => ?_⟩
  · simp [Account.discard, ColumnGroup.discard, ColumnGroup.closeBatch, ColumnGroup.takePassed, h.batches_eq]
  · refine h.rows.trans ?_
    simp only [settled, Account.discard, ColumnGroup.discard, ColumnGroup.closeBatch, ColumnGroup.takePassed, List.append_nil,
      List.append_assoc]
    refine List.Perm.append_left _ ?_
    rw [← List.append_assoc x.group.pending]
    exact List.perm_append_comm
  · rcases List.mem_cons.1 hset with rfl | hset
    · exact List.isChain_nil
    · exact h.gapless hpos set (List.mem_cons_of_mem _ hset)

/-- Counting lines keeps the account balanced. -/
theorem Counts.balanced (hxy : Counts count x y) (h : x.Balanced threshold []) : y.Balanced threshold [] := by
  induction hxy with
  | idle => exact h
  | inTime => exact h.passLines _
  | late => exact (h.passLines _).applyEarly
  | again _ _ _ _ ih => exact ih (h.passLines _).applyEarly.offer

/-- Draining a group keeps the account balanced. -/
theorem Drains.balanced (hxy : Drains x y) (h : x.Balanced threshold []) : y.Balanced threshold [] := by
  induction hxy with
  | done => exact h
  | round _ hcounts _ ih => exact ih (hcounts.balanced h.offer).apply

/-- Serving a call keeps the account balanced. -/
theorem Serves.balanced {call : Call} (hxy : Serves call x y) (h : x.Balanced threshold []) : y.Balanced threshold [] := by
  cases hxy with
  | add i stamp? =>
    refine Balanced.offerRow ⟨h.threshold_eq, h.pending_eq, h.batches_eq, ?_, h.range, h.gapless⟩
    refine (h.rows.cons _).trans (List.Perm.trans ?_ List.perm_append_comm)
    simp [settled]
  | newLines hcounts => exact hcounts.balanced h
  | discard => exact h.discard
  | finish hdrains => exact hdrains.balanced h.apply

/-! ## Rows are passed over only while others are pending -/

/-- Rows are passed over only while others are pending. -/
def Held (x : Account) : Prop := x.group.passed ≠ [] → x.group.pending ≠ []

/-- Counting lines keeps what is held. -/
theorem Counts.held (hxy : Counts count x y) (h : x.Held) : y.Held := by
  induction hxy with
  | idle => exact h
  | inTime hpending => exact fun _ => hpending
  | late _ _ hpassed => exact fun hne => absurd (by rw [passed_applyEarly]; exact hpassed) hne
  | again _ _ hpassed _ ih =>
    exact ih fun _ => (offer_progress (pending_applyEarly _) (by rw [passed_applyEarly]; exact hpassed)).1

/-- When all is applied that was passed over, nothing is pending nor passed over. -/
theorem Drains.empty (hxy : Drains x y) (h : x.group.pending = []) : y.group.pending = [] ∧ y.group.passed = [] := by
  induction hxy with
  | done hpassed => exact ⟨h, hpassed⟩
  | round _ _ _ ih => exact ih (pending_apply _)

/-- Serving a call keeps what is held. -/
theorem Serves.held {call : Call} (hxy : Serves call x y) (h : x.Held) : y.Held := by
  cases hxy with
  | add i stamp? =>
    -- Only a group with pending rows finds a row too far.
    cases hfar : x.group.tooFar (x.draft.strand.lexeme i).column with
    | true =>
      have hpending : x.group.pending ≠ [] := by
        rintro hnone
        simp [ColumnGroup.tooFar, hnone] at hfar
      rw [Held, offerRow_of_tooFar hfar]
      exact fun _ => hpending
    | false =>
      rw [Held, offerRow_of_near hfar]
      exact fun _ => List.append_ne_nil_of_right_ne_nil _ (List.cons_ne_nil _ _)
  | newLines hcounts => exact hcounts.held h
  | discard => exact fun hne => absurd rfl hne
  | finish hdrains => exact fun hne => absurd (hdrains.empty (pending_apply _)).2 hne

/-! ## The account of some calls -/

theorem added_foldl_offerRow (rows : List Row) (x : Account) : (rows.foldl Account.offerRow x).added = x.added := by
  induction rows generalizing x with
  | nil => rfl
  | cons row rows ih => exact ih (x.offerRow row)

/-- Counting lines adds no row. -/
theorem Counts.added_eq (hxy : Counts count x y) : y.added = x.added := by
  induction hxy with
  | idle | inTime | late => rfl
  | again _ _ _ _ ih => exact ih.trans (added_foldl_offerRow _ _)

/-- Draining a group adds no row. -/
theorem Drains.added_eq (hxy : Drains x y) : y.added = x.added := by
  induction hxy with
  | done => rfl
  | round _ hcounts _ ih => exact ih.trans (hcounts.added_eq.trans (added_foldl_offerRow _ _))

/-- Only adding a lexeme adds a row, one for the lexeme. -/
theorem Serves.added_eq {call : Call} (hxy : Serves call x y) :
    y.added.map (·.lexeme) = call.lexeme?.toList ++ x.added.map (·.lexeme) := by
  cases hxy with
  | add => rfl
  | newLines hcounts => exact congrArg _ hcounts.added_eq
  | discard => rfl
  | finish hdrains => exact congrArg _ hdrains.added_eq

/-- Following calls keeps the account balanced. -/
theorem Follows.balanced {calls : List (Draft × Call)} (hxy : Follows calls x y) (h : x.Balanced threshold []) :
    y.Balanced threshold [] := by
  induction hxy with
  | nil => exact h
  | cons hserves _ ih =>
    exact ih (hserves.balanced ⟨h.threshold_eq, h.pending_eq, h.batches_eq, h.rows, h.range, h.gapless⟩)

/-- Following calls keeps what is held. -/
theorem Follows.held {calls : List (Draft × Call)} (hxy : Follows calls x y) (h : x.Held) : y.Held := by
  induction hxy with
  | nil => exact h
  | cons hserves _ ih => exact ih (hserves.held h)

/-- What was added in the end is what the calls added. -/
theorem Follows.added_eq {calls : List (Draft × Call)} (hxy : Follows calls x y) :
    (y.added.map (·.lexeme)).reverse = (x.added.map (·.lexeme)).reverse ++ calls.filterMap (·.2.lexeme?) := by
  induction hxy with
  | nil => simp
  | @cons _ _ _ _ call _ hserves _ ih =>
    rw [ih, hserves.added_eq]
    cases hlexeme : call.lexeme? <;> simp [hlexeme]

end Account

/-- Whatever a column group is asked for, its rounds come to an end. Each row added is then in one applied set, discarded, pending or
passed over, each as often as it was added; rows are passed over only while others are pending; the range is that of the columns
that the pending rows had when they were admitted; no applied set has a gap above the threshold. If it is finished then, no row is
pending or passed over. -/
theorem ColumnGroup.conserves_rows (span threshold tabStop : Int) (alignRight : Bool) (calls : List (Draft × Call)) (d : Draft) :
    let start : ColumnGroup := { ColumnGroup.start span threshold tabStop with alignRight }
    ∃ x : Account, Account.Follows calls { draft := d, group := start } x ∧ x.group = start.answers calls ∧
      (x.added.map (·.lexeme)).reverse = calls.filterMap (·.2.lexeme?) ∧
      x.group.pending = (x.admitted.map (·.row)).reverse ∧
      (x.group.closed.filter (·.applied)).map (·.rows) = x.sets.map (fun set => (set.map (·.row)).reverse) ∧
      x.added.Perm (x.sets.flatten.map (·.row) ++ x.discarded ++ x.group.pending ++ x.group.passed) ∧
      (x.group.passed ≠ [] → x.group.pending ≠ []) ∧
      (x.group.pending ≠ [] →
        (x.admitted.map (·.column)).min? = some x.group.low ∧ (x.admitted.map (·.column)).max? = some x.group.high) ∧
      (0 < threshold → ∀ set ∈ x.sets, Gapless threshold (sortedColumns set)) ∧
      ∀ d', (x.group.finish d').2.pending = [] ∧ (x.group.finish d').2.passed = [] := by
  intro start
  obtain ⟨x, hx, hgroup⟩ := Account.exists_follows calls { draft := d, group := start }
  have hempty : Account.Balanced threshold [] { draft := d, group := start } :=
    ⟨rfl, rfl, rfl, .refl _, fun hne => absurd rfl hne, fun _ set hset => by
      cases List.mem_singleton.1 hset
      exact List.isChain_nil⟩
  have hbalanced := hx.balanced hempty
  refine ⟨x, hx, hgroup, hx.added_eq, hbalanced.pending_eq, hbalanced.batches_eq, ?_, hx.held fun hne => absurd rfl hne,
    fun hne => hbalanced.range (mt hbalanced.pending_eq_nil.2 hne),
    fun hpos set hset => hbalanced.gapless hpos set (List.mem_cons_of_mem _ hset), fun d' => ?_⟩
  · have hrows := hbalanced.rows
    rwa [List.append_nil] at hrows
  · obtain ⟨y, hy, heq⟩ := Account.exists_serves .finish { x with draft := d' }
    have hfinish : y.group = (x.group.finish d').2 := congrArg Prod.snd heq
    cases hy with
    | finish hdrains => exact hfinish ▸ hdrains.empty (Account.pending_apply _)

end CodeGroom
