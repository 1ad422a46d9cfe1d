import CodeGroom.Proofs.Alignment.Course

/-!
# Alignments that stay and alignments that do not

Every alignment moves the rest of the lines of its rows, so it disturbs an earlier one that has rows further back on these lines. As
long as calls have their own parentheses this is how an alignment is lost: its rows were arguments that were aligned early, because
the span was exceeded, and rows of the same calls in front of them were aligned later. When a run ends, its rows are aligned from
left to right, and nothing is lost.
-/

namespace CodeGroom

/-- The alignment moves the row of a call at a position. -/
def Alignment.HasRow (s : Strand) (c p : Nat) (m : Alignment) : Prop := ∃ i, some i ∈ m.rows ∧ s.RowAt c p i

/-- The first alignment moves a row of a call that stands in front of a row of that call in the second one. -/
def Alignment.Overrides (s : Strand) (m' m : Alignment) : Prop :=
  ∃ c, s.LeadsLine c ∧ ∃ p' p, p' < p ∧ m'.HasRow s c p' ∧ m.HasRow s c p

/-- Some event reports an alignment that overrides one. -/
def Trace.Overrides (s : Strand) (t : Trace) (m : Alignment) : Prop := ∃ e ∈ t, ∃ m', e.alignment? = some m' ∧ m'.Overrides s m

/-- An alignment is reported between the newer events and the older ones. -/
def Trace.Made (t newer : Trace) (m : Alignment) (older : Trace) : Prop := ∃ e, t = newer ++ e :: older ∧ e.alignment? = some m

variable {s : Strand} {t newer older : Trace} {m m' : Alignment} {e : Event}

theorem Trace.Overrides.cons (h : Trace.Overrides s newer m) (e : Event) : Trace.Overrides s (e :: newer) m := by
  obtain ⟨e', he', hover⟩ := h
  exact ⟨e', List.mem_cons_of_mem _ he', hover⟩

/-- An alignment that is reported is the newest event, or was reported before. -/
theorem Trace.Made.cases (h : Trace.Made (e :: t) newer m older) :
    (newer = [] ∧ older = t ∧ e.alignment? = some m) ∨ ∃ newer', newer = e :: newer' ∧ Trace.Made t newer' m older := by
  obtain ⟨e', hsplit, he'⟩ := h
  rcases List.cons_eq_append_iff.1 hsplit with ⟨rfl, hcons⟩ | ⟨newer', rfl, hrest⟩
  · obtain ⟨rfl, rfl⟩ := List.cons.inj hcons
    exact .inl ⟨rfl, rfl, he'⟩
  · exact .inr ⟨newer', rfl, e', hrest, he'⟩

namespace Stage

variable {ran : CallRun → Prop} {x y : Stage} {i j p : Nat} {o : Option Nat}

/-- The rows that wait at a position are different rows of calls of the current run, and all calls taken up lead their lines. -/
structure Waiting (s : Strand) (x : Stage) : Prop where
  leads : ∀ c ∈ x.taken, s.LeadsLine c
  calls : x.calls ⊆ x.taken
  rows : ∀ p, ∀ o ∈ x.pool p, IsRow s x.calls p o
  nodup : ∀ p, (x.pool p).Nodup

theorem Waiting.of_subperm (h : Waiting s x) (htaken : y.taken = x.taken) (hrun : y.run? = x.run?)
    (hpool : ∀ p, (y.pool p).Subperm (x.pool p)) : Waiting s y := by
  have hcalls : y.calls = x.calls := by rw [Stage.calls, hrun, Stage.calls]
  refine ⟨htaken ▸ h.leads, by rw [hcalls, htaken]; exact h.calls, fun p o ho => ?_, fun p => ?_⟩
  · rw [hcalls]
    exact h.rows p o ((hpool p).subset ho)
  · obtain ⟨l, hperm, hsub⟩ := hpool p
    exact hperm.nodup_iff.1 ((h.nodup p).sublist hsub)

theorem waiting_of_none (hleads : ∀ c ∈ x.taken, s.LeadsLine c) (hrun : x.run? = none) (hpool : ∀ p, x.pool p = []) :
    Waiting s x where
  leads := hleads
  calls := by
    rw [calls_of_none hrun]
    exact List.nil_subset _
  rows p o ho := by
    rw [hpool] at ho
    cases ho
  nodup p := by
    rw [hpool]
    exact .nil

theorem Waiting.step (hs : s.WellLinked) (hown : s.OwnParentheses) (h : Waiting s x) (hstep : Step s ran x y) : Waiting s y := by
  cases hstep with
  | note e _ => exact h.of_subperm rfl rfl fun p => .refl _
  | forget pool hsub => exact h.of_subperm rfl rfl hsub
  | align _ _ hperm _ _ => exact h.of_subperm rfl rfl (subperm_update hperm)
  | proceed p _ => exact h.of_subperm rfl rfl fun p => .refl _
  | leave => exact waiting_of_none h.leads rfl fun _ => rfl
  | @join call edge r hleads _ hnew _ hcalls _ =>
    have hjoined : Stage.calls { x with taken := call :: x.taken, run? := some r, pool := fun p => x.pool p ++ offer s call p } =
        call :: x.calls := hcalls
    refine ⟨fun c hc => ?_, ?_, fun p o ho => ?_, fun p => ?_⟩
    · rcases List.mem_cons.1 hc with rfl | hc
      · exact hleads
      · exact h.leads c hc
    · rw [hjoined]
      exact List.cons_subset_cons call h.calls
    · rw [hjoined]
      exact isRow_append_offer (h.rows p) ho
    · refine List.Nodup.append (h.nodup p) (nodup_offer s call p) fun o ho ho' => ?_
      -- A row of the new call is no row of another one.
      obtain ⟨c, hc, i, rfl, hrow⟩ := h.rows p o ho
      obtain ⟨i', hi', hrow'⟩ := mem_offer.1 ho'
      obtain rfl := Option.some.inj hi'
      obtain ⟨rfl, -⟩ := hown.row_inj hs (h.leads c (h.calls hc)) hleads hrow hrow'
      exact hnew (h.calls hc)

/-- Rows that wait at a position do not disturb each other. -/
theorem Waiting.apart (hs : s.WellLinked) (hown : s.OwnParentheses) (h : Waiting s x) {is : List (Option Nat)}
    (his : is ⊆ x.pool p) : Alignment.Apart s is := by
  have hleads : ∀ c ∈ x.calls, s.LeadsLine c := fun c hc => h.leads c (h.calls hc)
  refine apart_of_isRow hs hleads (fun o ho => h.rows p o (his ho)) fun c hc c' hc' i j hrow hrow' hline => ?_
  obtain rfl := hown.eq_of_lineOf_eq hs (hleads c hc) (hleads c' hc') hrow hrow' hline
  exact Option.some.inj (hrow.symm.trans hrow')

/-- What has become of an alignment that was reported between newer and older events: its rows, of calls at one position, wait no
longer; it was made early, or no position in front of its own is still to be finished while its calls run; and its rows share a
column, or it was made early and overridden since. -/
structure Standing (s : Strand) (x : Stage) (newer older : Trace) (m : Alignment) (p : Nat) : Prop where
  rows : ∀ o ∈ m.rows, IsRow s x.taken p o
  gone : ∀ o ∈ m.rows, ∀ q, o ∉ x.pool q
  late : older.overdue = true ∨ ∀ c ∈ x.calls, m.HasRow s c p → ∃ q, x.finishing = some q ∧ p ≤ q
  outcome : m.Shared x.draft.strand ∨ older.overdue = true ∧ newer.Overrides s m

/-- An alignment of waiting rows overrides an earlier one, which was made early then, or does not disturb it. -/
theorem Standing.disturbed {rest : List (Option Nat)} {q : Nat} (hs : s.WellLinked) (hown : s.OwnParentheses) (hwait : Waiting s x)
    (hstrand : Strand.Recolumned s x.draft.strand) (h : Standing s x newer older m p) (hperm : (x.pool q).Perm (m'.rows ++ rest))
    (hcause : x.finishing = some q ∨ x.finishing = none ∧ x.draft.trace.overdue = true) (hshared : m.Shared x.draft.strand) :
    m.Shared (m'.place x.draft.strand) ∨ older.overdue = true ∧ m'.Overrides s m := by
  have hrows : m'.rows ⊆ x.pool q := fun o ho => hperm.symm.subset (List.mem_append_left _ ho)
  by_cases hover : ∃ c ∈ x.calls, q < p ∧ m'.HasRow s c q ∧ m.HasRow s c p
  · obtain ⟨c, hc, hqp, hrow', hrow⟩ := hover
    refine .inr ⟨?_, c, hwait.leads c (hwait.calls hc), q, p, hqp, hrow', hrow⟩
    -- A run that is ending has come as far as the earlier alignment, so it does not go back to this position.
    refine h.late.resolve_right fun hlate => ?_
    obtain ⟨q', hq', hpq'⟩ := hlate c hc hrow
    rcases hcause with hfinishing | ⟨hfinishing, -⟩
    · obtain rfl := Option.some.inj (hq'.symm.trans hfinishing)
      omega
    · rw [hfinishing] at hq'
      cases hq'
  · obtain ⟨column, hcolumn⟩ := hshared
    refine .inl ⟨column, fun o ho => ?_⟩
    obtain ⟨c, hc, i, rfl, hrow⟩ := h.rows o ho
    have hleads := hwait.leads c hc
    have hline : x.draft.strand.OnLine i := hstrand.onLine_iff.2 ⟨hrow.mem_order hs hleads.mem, hrow.isNewline hs hleads⟩
    rw [Alignment.place, Alignment.edge_foldl_move m m' (hstrand.wellLinked hs) hline, hcolumn _ ho]
    · intro o' ho'
      obtain ⟨c', hc', j, rfl, hrow'⟩ := hwait.rows q o' (hrows ho')
      exact ⟨j, hstrand.order_eq ▸ hrow'.mem_order hs (hwait.leads c' (hwait.calls hc')).mem, rfl⟩
    · intro j hj hsame
      obtain ⟨c', hc', j', hj', hrow'⟩ := hwait.rows q _ (hrows hj)
      obtain rfl := Option.some.inj hj'
      rw [hstrand.lineOf_eq, hstrand.lineOf_eq] at hsame
      obtain rfl := hown.eq_of_lineOf_eq hs (hwait.leads c' (hwait.calls hc')) hleads hrow' hrow hsame
      rw [hstrand.placeOf_eq, hstrand.placeOf_eq]
      rcases Nat.lt_trichotomy p q with hlt | rfl | hgt
      · exact hrow.placeOf_lt hrow' hs hleads.mem hlt
      · obtain rfl := Option.some.inj (hrow.symm.trans hrow')
        exact absurd (hrows hj) (h.gone _ ho p)
      · exact absurd ⟨c', hc', hgt, ⟨j, hj, hrow'⟩, i, ho, hrow⟩ hover

/-- The state of an alignment from one step to the next. -/
theorem Standing.step_of_eq {newer' : Trace} (h : Standing s x newer older m p) (htaken : x.taken ⊆ y.taken)
    (hcalls : y.calls = x.calls) (hpool : ∀ q, y.pool q ⊆ x.pool q)
    (hfinishing : ∀ q, x.finishing = some q → ∃ q', y.finishing = some q' ∧ q ≤ q')
    (hstrand : y.draft.strand = x.draft.strand) (hnewer : newer.Overrides s m → newer'.Overrides s m) :
    Standing s y newer' older m p where
  rows o ho := (h.rows o ho).mono htaken
  gone o ho q hq := h.gone o ho q (hpool q hq)
  late := h.late.imp id fun hlate c hc hrow => by
    obtain ⟨q, hq, hpq⟩ := hlate c (hcalls ▸ hc) hrow
    obtain ⟨q', hq', hqq'⟩ := hfinishing q hq
    exact ⟨q', hq', Nat.le_trans hpq hqq'⟩
  outcome := h.outcome.imp (fun hshared => hstrand ▸ hshared) fun ⟨hearly, hover⟩ => ⟨hearly, hnewer hover⟩

/-- What is said of every alignment reported so far. -/
def Accounted (s : Strand) (x : Stage) : Prop :=
  ∀ newer m older, x.draft.trace.Made newer m older → ∃ p, Standing s x newer older m p

/-- An alignment that is just made stands. -/
theorem standing_new {rest : List (Option Nat)} (hs : s.WellLinked) (hown : s.OwnParentheses) (hwait : Waiting s x)
    (hstrand : Strand.Recolumned s x.draft.strand) (hperm : (x.pool p).Perm (m.rows ++ rest)) (hreach : m.Reaches x.draft.strand)
    (hcause : x.finishing = some p ∨ x.finishing = none ∧ x.draft.trace.overdue = true) :
    Standing s { x with draft := ⟨m.place x.draft.strand, e :: x.draft.trace⟩, pool := Function.update x.pool p rest } []
      x.draft.trace m p where
  rows o ho := (hwait.rows p o (hperm.symm.subset (List.mem_append_left _ ho))).mono hwait.calls
  gone o ho q hq := by
    dsimp only at hq
    have hop : o ∈ x.pool p := hperm.symm.subset (List.mem_append_left _ ho)
    by_cases hqp : q = p
    · subst hqp
      rw [Function.update_self] at hq
      exact List.disjoint_of_nodup_append (hperm.nodup_iff.1 (hwait.nodup q)) ho hq
    · rw [Function.update_of_ne hqp] at hq
      obtain ⟨c, hc, i, rfl, hrow⟩ := hwait.rows q o hq
      obtain ⟨c', hc', i', hi', hrow'⟩ := hwait.rows p _ hop
      obtain rfl := Option.some.inj hi'
      exact hqp (hown.row_inj hs (hwait.leads c (hwait.calls hc)) (hwait.leads c' (hwait.calls hc')) hrow hrow').2
  late := hcause.elim (fun hfinishing => .inr fun _ _ _ => ⟨p, hfinishing, Nat.le_refl p⟩) fun hearly => .inl hearly.2
  outcome := by
    have hrows : m.rows ⊆ x.pool p := fun o ho => hperm.symm.subset (List.mem_append_left _ ho)
    exact .inl ⟨m.target, Alignment.edge_place m (hstrand.wellLinked hs) ((hwait.apart hs hown hrows).recolumned hstrand) hreach⟩

theorem Accounted.step (hs : s.WellLinked) (hown : s.OwnParentheses) (hwait : Waiting s x)
    (hstrand : Strand.Recolumned s x.draft.strand) (h : Accounted s x) (hstep : Step s ran x y) : Accounted s y := by
  intro newer m older hmade
  cases hstep with
  | note e he =>
    rcases hmade.cases with ⟨-, -, he'⟩ | ⟨newer', rfl, hmade'⟩
    · rw [he] at he'
      cases he'
    · obtain ⟨p, hp⟩ := h newer' m older hmade'
      exact ⟨p, hp.step_of_eq (List.Subset.refl _) rfl (fun q => List.Subset.refl _) (fun q hq => ⟨q, hq, Nat.le_refl q⟩) rfl
        fun hover => hover.cons e⟩
  | forget pool hsub =>
    obtain ⟨p, hp⟩ := h newer m older hmade
    exact ⟨p, hp.step_of_eq (List.Subset.refl _) rfl (fun q => (hsub q).subset) (fun q hq => ⟨q, hq, Nat.le_refl q⟩) rfl id⟩
  | @align q rest m' e he _ hperm hreach hcause =>
    rcases hmade.cases with ⟨rfl, rfl, he'⟩ | ⟨newer', rfl, hmade'⟩
    · obtain rfl := Option.some.inj (he'.symm.trans he)
      exact ⟨q, standing_new hs hown hwait hstrand hperm hreach hcause⟩
    · obtain ⟨p, hp⟩ := h newer' m older hmade'
      refine ⟨p, hp.rows, fun o ho r hr => hp.gone o ho r ((subperm_update hperm r).subset hr), hp.late, ?_⟩
      rcases hp.outcome with hshared | ⟨hearly, hover⟩
      · refine (hp.disturbed hs hown hwait hstrand hperm hcause hshared).imp id fun ⟨hearly, hover⟩ => ⟨hearly, ?_⟩
        exact ⟨e, List.mem_cons_self, m', he, hover⟩
      · exact .inr ⟨hearly, hover.cons e⟩
  | proceed q hq =>
    obtain ⟨p, hp⟩ := h newer m older hmade
    exact ⟨p, hp.step_of_eq (List.Subset.refl _) rfl (fun q => List.Subset.refl _) (fun r hr => ⟨q, rfl, hq r hr⟩) rfl id⟩
  | leave =>
    obtain ⟨p, hp⟩ := h newer m older hmade
    exact ⟨p, hp.rows, fun o ho q hq => (List.not_mem_nil hq).elim, .inr fun c hc => (List.not_mem_nil hc).elim, hp.outcome⟩
  | @join call edge r hleads _ hnew _ hcalls _ =>
    obtain ⟨p, hp⟩ := h newer m older hmade
    -- No row of the alignment is one of the call that joins, which was not taken up before.
    have hother : ∀ i q, some i ∈ m.rows → ¬s.RowAt call q i := by
      intro i q hi hrow
      obtain ⟨c, hc, i', hi', hrow'⟩ := hp.rows _ hi
      obtain rfl := Option.some.inj hi'
      obtain ⟨rfl, -⟩ := hown.row_inj hs (hwait.leads c hc) hleads hrow' hrow
      exact hnew hc
    refine ⟨p, fun o ho => (hp.rows o ho).mono (List.subset_cons_self _ _), fun o ho q hq => ?_, hp.late.imp id ?_, hp.outcome⟩
    · rcases List.mem_append.1 hq with hq | hq
      · exact hp.gone o ho q hq
      · obtain ⟨i, rfl, hrow⟩ := mem_offer.1 hq
        exact hother i q ho hrow
    · intro hlate c hc hrow
      rw [calls_of_run rfl, hcalls] at hc
      rcases List.mem_cons.1 hc with rfl | hc
      · obtain ⟨i, hi, hrow⟩ := hrow
        exact absurd hrow (hother i p hi)
      · exact hlate c hc hrow

end Stage

namespace CallAligner

open Stage

/-- An alignment of a run is not undone, unless it was made early and a later one moves rows of its calls in front of its own. It
takes that calls have their own parentheses: between a call that leads its line and its parenthesis no other call leads a line. -/
theorem shared_or_overridden (st : Style) (hs : s.WellLinked) (hown : s.OwnParentheses)
    (hmade : (align st s).draft.trace.Made newer m older) :
    m.Shared (align st s).strand ∨ older.overdue = true ∧ newer.Overrides s m := by
  obtain ⟨x, hsteps, hx⟩ := exists_steps_align st hs
  have hstart : Waiting s ((start st s).stage []) :=
    waiting_of_none (fun c hc => (List.not_mem_nil hc).elim) rfl fun p => by cases p <;> rfl
  have hnothing : Accounted s ((start st s).stage []) := by
    intro newer m older hmade
    rcases hmade.cases with ⟨-, -, he⟩ | ⟨newer', -, e, hsplit, -⟩
    · cases he
    · simp at hsplit
  have hall := hsteps.invariant
    (P := fun x => Waiting s x ∧ Accounted s x ∧ Strand.Recolumned s x.draft.strand)
    (fun x y ⟨hwait, haccounted, hstrand⟩ hstep => ⟨hwait.step hs hown hstep, haccounted.step hs hown hwait hstrand hstep,
      hstrand.trans (Steps.recolumned (.single hstep))⟩) ⟨hstart, hnothing, .refl s⟩
  rw [← hx] at hmade
  obtain ⟨p, hp⟩ := hall.2.1 newer m older hmade
  rw [strand, ← hx]
  exact hp.outcome

namespace OverridesAux

/-- The tokens of two calls, the second one further to the right, and some line feeds. -/
def callTokens (feeds : Nat) : List Token :=
  [⟨0, .text, Text.ofString "\n"⟩, ⟨1, .name, Text.ofString "f"⟩, ⟨2, .punctuation, Text.ofString "("⟩,
    ⟨3, .numberInteger, Text.ofString "1"⟩, ⟨4, .punctuation, Text.ofString ","⟩, ⟨5, .name, Text.ofString "a"⟩,
    ⟨6, .punctuation, Text.ofString ");"⟩, ⟨8, .text, Text.ofString "\n  "⟩, ⟨11, .name, Text.ofString "f"⟩,
    ⟨12, .punctuation, Text.ofString "("⟩, ⟨13, .numberInteger, Text.ofString "22"⟩, ⟨15, .punctuation, Text.ofString ","⟩,
    ⟨16, .name, Text.ofString "b"⟩, ⟨17, .punctuation, Text.ofString ");"⟩, ⟨19, .text, List.replicate feeds Text.lineFeed⟩]

/-- The source that they are cut from. -/
def callSource (feeds : Nat) : Source := { text := (callTokens feeds).flatMap (·.text) }

end OverridesAux

open OverridesAux in
/-- When the source ends, the calls are aligned first, and stay so when their arguments are aligned. -/
theorem shared_callSource :
    (⟨[some 1, some 9], false, 3⟩ : Alignment).Shared (align {} ((callSource 1).read (callTokens 1))).strand := by
  obtain ⟨s, hs⟩ : ∃ s, s = (callSource 1).read (callTokens 1) := ⟨_, rfl⟩
  have hlinked : s.WellLinked := hs ▸ Strand.wellLinked_ofLexemes _ _
  have hown : s.OwnParentheses := by
    rw [hs]
    decide +kernel
  have hmade : (align {} s).draft.trace.Made ((align {} s).draft.trace.take 2) ⟨[some 1, some 9], false, 3⟩
      ((align {} s).draft.trace.drop 3) := by
    rw [hs]
    exact ⟨.rowsAligned [some 1, some 9] 3, by decide +kernel, rfl⟩
  rw [← hs]
  refine (shared_or_overridden {} hlinked hown hmade).resolve_right fun ⟨hearly, _⟩ => ?_
  rw [hs] at hearly
  exact absurd hearly (by decide +kernel)

open OverridesAux in
/-- When too many lines go by, the arguments are aligned first. The calls are aligned after that, and the arguments do not share a
column any more. -/
theorem not_shared_align : ¬∀ (src : Source) (ts : List Token) (st : Style) (newer older : Trace) (m : Alignment),
    Token.Tiles 0 src.text ts → (align st (src.read ts)).draft.trace.Made newer m older →
      m.Shared (align st (src.read ts)).strand := by
  intro h
  have hall := h (callSource 5) (callTokens 5) {}
  have hmade : (align {} ((callSource 5).read (callTokens 5))).draft.trace.Made
      ((align {} ((callSource 5).read (callTokens 5))).draft.trace.take 5) ⟨[some 3, some 11], true, 7⟩
      ((align {} ((callSource 5).read (callTokens 5))).draft.trace.drop 6) :=
    ⟨.rowsAlignedRight [some 3, some 11] 7, by decide +kernel, rfl⟩
  obtain ⟨column, hcolumn⟩ := hall _ _ _ (by decide +kernel) hmade
  have hsame : (⟨[some 3, some 11], true, 7⟩ : Alignment).edge (align {} ((callSource 5).read (callTokens 5))).strand (some 3) =
      (⟨[some 3, some 11], true, 7⟩ : Alignment).edge (align {} ((callSource 5).read (callTokens 5))).strand (some 11) :=
    (hcolumn _ (by simp)).trans (hcolumn _ (by simp)).symm
  exact absurd hsame (by decide +kernel)

end CallAligner

end CodeGroom
