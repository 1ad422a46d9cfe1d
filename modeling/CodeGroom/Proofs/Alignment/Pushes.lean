import CodeGroom.Proofs.Alignment.Course
import CodeGroom.Proofs.Annotate.Level
import CodeGroom.Proofs.Grouping.Depths
import CodeGroom.Proofs.Grouping.Inserted

/-!
# Aligning calls pushes right

The rows that wait at one position belong to calls of the current run, all of one depth, so two of them on one line are the same
lexeme and none is pushed twice by one alignment. Aligning the calls of a source therefore only pushes lexemes to the right, on the
lines of rows of runs with at least two calls; everything else stays.
-/

namespace CodeGroom

theorem Kind.turns_of_qualifies {k : Kind} (h : k.qualifies = true) : k.turns = false := by
  cases k <;> first | rfl | cases h

namespace Strand

variable {s : Strand} {call edge : Nat}

/-- In a level strand a call that leads its line is as deep as the start of the line. -/
theorem LeadsLine.depth_edge (h : s.LeadsLine call) (hs : s.WellLinked) (hlevel : s.Level)
    (hedge : s.leftEdge (some call) = some edge) : (s.lexeme (some edge)).depth = (s.lexeme (some call)).depth := by
  obtain ⟨front, newline, m, rest, hlinked, -, hm, hhead⟩ := h.exists_front hs
  have hsplit : s.Linked ((front ++ [newline]) ++ ((m ++ [call]) ++ rest)) := by simpa using hlinked
  refine hlevel.depth_eq hsplit (fun x hx => ?_) (hhead ▸ hedge) (by simp)
  rcases List.mem_append.1 hx with hx | hx
  · exact Kind.turns_of_qualifies (hm x hx)
  · rw [List.mem_singleton.1 hx, h.kind]
    rfl

end Strand

namespace Stage

variable {s : Strand} {ran : CallRun → Prop} {x y : Stage}

/-- What waits at a stage belongs to the current run: its calls lead their lines and are equally deep, and the rows that wait at a
position are rows of its calls there, at most one for each call. -/
structure Gathered (s : Strand) (ran : CallRun → Prop) (x : Stage) : Prop where
  leads : ∀ c ∈ x.calls, s.LeadsLine c
  run : ∀ r, x.run? = some r → ran r ∧ ∀ c ∈ r.calls, (s.lexeme (some c)).depth = r.depth
  rows : ∀ p, ∀ o ∈ x.pool p, IsRow s x.calls p o
  length_le : ∀ p, (x.pool p).length ≤ x.calls.length

/-- Calls of a run are equally deep. -/
theorem Gathered.depth_eq {c c' : Nat} (h : Gathered s ran x) (hc : c ∈ x.calls) (hc' : c' ∈ x.calls) :
    (s.lexeme (some c)).depth = (s.lexeme (some c')).depth := by
  cases hr : x.run? with
  | none =>
    rw [calls_of_none hr] at hc
    cases hc
  | some r =>
    rw [calls_of_run hr] at hc hc'
    rw [(h.run r hr).2 c hc, (h.run r hr).2 c' hc']

/-- Rows that go away leave the others. -/
theorem Gathered.subset (h : Gathered s ran x) (hrun : y.run? = x.run?) (hpool : ∀ p, (y.pool p).Subperm (x.pool p)) :
    Gathered s ran y := by
  have hcalls : y.calls = x.calls := by rw [calls, hrun, calls]
  refine ⟨hcalls ▸ h.leads, hrun ▸ h.run, fun p o ho => ?_, fun p => ?_⟩
  · rw [hcalls]
    exact h.rows p o ((hpool p).subset ho)
  · rw [hcalls]
    exact Nat.le_trans (hpool p).length_le (h.length_le p)

/-- Without a run nothing waits. -/
theorem gathered_of_none (hrun : x.run? = none) (hpool : ∀ p, x.pool p = []) : Gathered s ran x where
  leads c hc := by
    rw [calls_of_none hrun] at hc
    cases hc
  run r hr := by
    rw [hrun] at hr
    cases hr
  rows p o ho := by
    rw [hpool] at ho
    cases ho
  length_le p := by
    rw [hpool]
    exact Nat.zero_le _

theorem Gathered.step (hs : s.WellLinked) (hlevel : s.Level) (h : Gathered s ran x) (hstep : Step s ran x y) : Gathered s ran y := by
  cases hstep with
  | note e _ => exact h.subset rfl fun p => .refl _
  | forget pool hsub => exact h.subset rfl hsub
  | align _ _ hperm _ _ => exact h.subset rfl (subperm_update hperm)
  | proceed p _ => exact h.subset rfl fun p => .refl _
  | leave => exact gathered_of_none rfl fun _ => rfl
  | @join call edge r hleads hedge _ hran hcalls hdepth =>
    have hjoined : Stage.calls { x with taken := call :: x.taken, run? := some r, pool := fun p => x.pool p ++ offer s call p } =
        call :: x.calls := hcalls
    refine ⟨fun c hc => ?_, fun r' hr' => ?_, fun p o ho => ?_, fun p => ?_⟩
    · rw [hjoined] at hc
      rcases List.mem_cons.1 hc with rfl | hc
      · exact hleads
      · exact h.leads c hc
    · obtain rfl := Option.some.inj hr'
      refine ⟨hran, fun c hc => ?_⟩
      rw [hcalls] at hc
      -- The run has the depth of its first call, or of where the line of that call starts.
      rcases hdepth with ⟨hnone, hedgedepth⟩ | ⟨r', hr', hsame, hcall⟩
      · rw [calls_of_none hnone, List.mem_singleton] at hc
        rw [hc, hedgedepth, hleads.depth_edge hs hlevel hedge]
      · rcases List.mem_cons.1 hc with rfl | hc
        · exact hcall.symm
        · rw [hsame]
          exact (h.run r' hr').2 c (calls_of_run hr' ▸ hc)
    · rw [hjoined]
      exact isRow_append_offer (h.rows p) ho
    · rw [hjoined, List.length_append, List.length_cons]
      exact Nat.add_le_add (h.length_le p) (length_offer_le s call p)

/-- Of rows that wait at one position, two on one line are the same. -/
theorem Gathered.apart {p : Nat} {is : List (Option Nat)} (hs : s.WellLinked) (h : Gathered s ran x) (his : is ⊆ x.pool p) :
    Alignment.Apart s is :=
  apart_of_isRow hs h.leads (fun o ho => h.rows p o (his ho)) fun c hc c' hc' _ _ hrow hrow' hline =>
    hrow.eq_of_lineOf_eq hs (h.leads c hc) (h.leads c' hc') (h.depth_eq hc hc') hrow' hline

end Stage

namespace CallAligner

open Stage

variable {s : Strand} {st : Style}

/-- A lexeme is a row of a run of several calls: a call of the run or an argument of one. -/
def Aligned (st : Style) (s : Strand) (i : Nat) : Prop := ∃ r, Runs st s r ∧ 1 < r.count ∧ ∃ c ∈ r.calls, i ∈ s.rowsOf c

theorem gathered_start (st : Style) (s : Strand) : Gathered s (Runs st s) ((start st s).stage []) :=
  gathered_of_none rfl fun p => by cases p <;> rfl

/-- A step pushes lexemes on the lines of rows. -/
theorem pushed_step {x y : Stage} (hs : s.WellLinked) (h : Gathered s (Runs st s) x)
    (hpushed : Strand.Pushed (Aligned st s) s x.draft.strand) (hstep : Step s (Runs st s) x y) :
    Strand.Pushed (Aligned st s) s y.draft.strand := by
  cases hstep with
  | note e _ => exact hpushed
  | forget pool _ => exact hpushed
  | @align p rest m e _ htwo hperm hreach _ =>
    have hrows : m.rows ⊆ x.pool p := fun o ho => hperm.symm.subset (List.mem_append_left _ ho)
    have hplace := Alignment.pushed_place m (hpushed.recolumned.wellLinked hs) ((h.apart hs hrows).recolumned hpushed.recolumned)
      hreach
    refine hpushed.trans (hplace.mono fun i hi => ?_)
    obtain ⟨c, hc, i', hi', hrow⟩ := h.rows p _ (hrows hi)
    obtain rfl := Option.some.inj hi'
    cases hr : x.run? with
    | none =>
      rw [calls_of_none hr] at hc
      cases hc
    | some r =>
      have hcount : (m.rows ++ rest).length ≤ r.calls.length := by
        rw [← hperm.length_eq, ← calls_of_run hr]
        exact h.length_le p
      rw [List.length_append] at hcount
      refine ⟨r, (h.run r hr).1, ?_, c, calls_of_run hr ▸ hc, List.mem_of_getElem? hrow⟩
      rw [CallRun.count]
      omega
  | proceed p _ => exact hpushed
  | leave => exact hpushed
  | join _ _ _ _ _ _ => exact hpushed

/-- Aligning the calls of a level strand only pushes lexemes to the right, on the lines of rows. -/
theorem pushed_align_of_level (st : Style) (hs : s.WellLinked) (hlevel : s.Level) :
    Strand.Pushed (Aligned st s) s (align st s).strand := by
  obtain ⟨x, hsteps, hx⟩ := exists_steps_align st hs
  have hall : Gathered s (Runs st s) x ∧ Strand.Pushed (Aligned st s) s x.draft.strand :=
    hsteps.invariant (P := fun x => Gathered s (Runs st s) x ∧ Strand.Pushed (Aligned st s) s x.draft.strand)
      (fun _ _ ⟨hgathered, hpushed⟩ hstep => ⟨hgathered.step hs hlevel hstep, pushed_step hs hgathered hpushed hstep⟩)
      ⟨gathered_start st s, .refl _ s⟩
  rw [strand, ← hx]
  exact hall.2

/-- A strand that was read from a source, as it is or with pairs inserted, is well-linked and level. -/
theorem level_of_read {src : Source} {ts : List Token} (hts : src.Legible ts)
    (hs : s = src.read ts ∨ ∃ st trace, s = (({ strand := src.read ts, trace } : Grouping).run st).strand) :
    s.WellLinked ∧ s.Level := by
  have hread : (src.read ts).WellLinked := Strand.wellLinked_ofLexemes _ _
  rcases hs with rfl | ⟨st, trace, rfl⟩
  · exact ⟨hread, Source.level_read hts⟩
  · exact Grouping.level_run st _ hread (Grouping.orderly_rows (src.wellRead ts)) rfl (Source.level_read hts)

/-- Aligning the calls of a source, as it was read or with pairs inserted, only pushes lexemes to the right, and only on the lines
of rows of runs with several calls: nothing is added, linked anew or changed apart from columns, no lexeme moves to the left and no
two neighbours on a line come closer, line breaks keep their columns, and a line without rows is what it was. -/
theorem pushed_align (st : Style) {src : Source} {ts : List Token} (hts : src.Legible ts)
    (hs : s = src.read ts ∨ ∃ st trace, s = (({ strand := src.read ts, trace } : Grouping).run st).strand) :
    Strand.Pushed (Aligned st s) s (align st s).strand ∧
      ∀ j, (∀ i, Aligned st s i → s.lineOf i ≠ s.lineOf j) → (align st s).strand.lexeme (some j) = s.lexeme (some j) := by
  obtain ⟨hlinked, hlevel⟩ := level_of_read hts hs
  have hpushed := pushed_align_of_level st hlinked hlevel
  refine ⟨hpushed, fun j hj => ?_⟩
  rw [hpushed.recolumned.lexeme_eq, hpushed.elsewhere j hj]
  rfl

namespace PushesAux

/-- Two calls with arguments of different widths, and a line without a call behind them. -/
def callTokens : List Token :=
  [⟨0, .text, Text.ofString "\n"⟩, ⟨1, .name, Text.ofString "f"⟩, ⟨2, .punctuation, Text.ofString "("⟩,
    ⟨3, .number, Text.ofString "1"⟩, ⟨4, .punctuation, Text.ofString ")"⟩, ⟨5, .punctuation, Text.ofString ";"⟩,
    ⟨6, .text, Text.ofString "\n"⟩, ⟨7, .text, Text.ofString "  "⟩, ⟨9, .name, Text.ofString "f"⟩,
    ⟨10, .punctuation, Text.ofString "("⟩, ⟨11, .number, Text.ofString "22"⟩, ⟨13, .punctuation, Text.ofString ")"⟩,
    ⟨14, .punctuation, Text.ofString ";"⟩, ⟨15, .text, Text.ofString "\n"⟩, ⟨16, .name, Text.ofString "x"⟩]

/-- The source that they are cut from. -/
def callSource : Source := { text := callTokens.flatMap (·.text) }

end PushesAux

open PushesAux in
/-- The first call is pushed below the second one and its number in front of the end of the other number; the last line stays. -/
theorem pushed_align_callSource :
    Strand.Pushed (Aligned {} (callSource.read callTokens)) (callSource.read callTokens)
        (align {} (callSource.read callTokens)).strand ∧
      [1, 3, 7, 9, 13].map (callSource.read callTokens).columnAt = [1, 3, 3, 5, 1] ∧
        [1, 3, 7, 9, 13].map (align {} (callSource.read callTokens)).strand.columnAt = [3, 6, 3, 5, 1] :=
  ⟨(pushed_align {} (by decide +kernel) (.inl rfl)).1, by decide +kernel, by decide +kernel⟩

end CallAligner

end CodeGroom
