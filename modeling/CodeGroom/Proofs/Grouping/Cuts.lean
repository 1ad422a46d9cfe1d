import CodeGroom.Proofs.Expression.Weight
import CodeGroom.Proofs.Grouping.Regions

/-!
# What a scan cuts off

Inserted parentheses say what the precedence of operators says anyway, with one exception: assignments do not end a run although
they bind less than what does. A run that holds an assignment next to a logical operator, or in front of a `?`, is cut off from
what the assignment takes in. A scan leaves the trees as they are where it encloses no such run, and sinks an assignment where it
does.
-/

namespace CodeGroom

namespace Forest

open CodeGroom.Frame Grouping

variable {F G run run' rest out : Forest} {left : Option Kind} {compared assigned : Bool} {d : Int} {f : Frame}

/-- Whether nothing is returned in the forest outside the brackets that a scan passes over. -/
def returnsNothing : Forest → Bool
  | nil => true
  | leaf e rest => e.kind ≠ .returnWord && rest.returnsNothing
  | group o inner _ rest => (!o.kind.opensRound || inner.returnsNothing) && rest.returnsNothing

/-- Whether a scan cuts no assignment off: it stands behind an entry of the kind `left` and has met a comparison or not and an
assignment or not. -/
def cutsNothing : Option Kind → Bool → Bool → Forest → Bool
  | left, compared, assigned, nil => !(compared && assigned) || left ≠ some .logical
  | left, compared, assigned, leaf e rest =>
    if e.kind.endsRun then
      (!(compared && assigned) || left ≠ some .logical && e.kind ≠ .logical && e.kind ≠ .question) &&
        rest.cutsNothing (some e.kind) false false
    else if e.kind = .semicolon then rest.cutsNothing (some .semicolon) false false
    else rest.cutsNothing left (compared || e.kind = .compare) (assigned || e.kind = .assign)
  | left, compared, assigned, group o inner _ rest =>
    (!o.kind.opensRound || inner.cutsNothing none false false) && rest.cutsNothing left compared assigned

variable {e o c : Entry} {inner : Forest}

/-- What a border asks of the run in front of it, and of the rest. -/
theorem cutsNothing_border (hends : e.kind.endsRun = true) : (leaf e rest).cutsNothing left compared assigned =
    ((!(compared && assigned) || left ≠ some .logical && e.kind ≠ .logical && e.kind ≠ .question) &&
      rest.cutsNothing (some e.kind) false false) := by
  rw [cutsNothing, if_pos hends]

/-- A semicolon asks nothing of the run in front of it. -/
theorem cutsNothing_semicolon (hk : e.kind = .semicolon) :
    (leaf e rest).cutsNothing left compared assigned = rest.cutsNothing (some .semicolon) false false := by
  simp [cutsNothing, hk, Kind.endsRun]

/-- A word is taken into the run. -/
theorem cutsNothing_word (hends : e.kind.endsRun = false) (hsemi : e.kind ≠ .semicolon) :
    (leaf e rest).cutsNothing left compared run.hasAssign =
      rest.cutsNothing left (compared || e.kind = .compare) (run ++ leaf e nil).hasAssign := by
  simp [cutsNothing, hends, hsemi, hasAssign_append, hasAssign]

/-- A bracket is taken into the run, and a round one is asked by itself. -/
theorem cutsNothing_group : (group o inner c rest).cutsNothing left compared run.hasAssign =
    ((!o.kind.opensRound || inner.cutsNothing none false false) &&
      rest.cutsNothing left compared (run ++ group o inner c nil).hasAssign) := by
  simp [cutsNothing, hasAssign_append, hasAssign]

/-- A scan has a run and more of a region that it may read: brackets match in what is still to come, no directive lies in either,
and nothing is returned. -/
structure Readable (d : Int) (run rest : Forest) : Prop where
  plain : run.IsPlain
  fits : rest.Fits d
  outsideRun : run.OutsideDirectives
  outsideRest : rest.OutsideDirectives
  returns : rest.returnsNothing = true

/-- A region without directives and returns can be read from its start. -/
theorem Readable.start (hF : F.Fits d) (hdir : F.OutsideDirectives) (hreturns : F.returnsNothing = true) : Readable d nil F :=
  ⟨trivial, hF, outsideDirectives_nil, hdir, hreturns⟩

theorem Readable.outside (h : Readable d run (leaf e rest)) : e.inDirective = false := (outsideDirectives_leaf.1 h.outsideRest).1

/-- Behind a border a new run can be read. -/
theorem Readable.border (h : Readable d run (leaf e rest)) : Readable d nil rest := by
  have hreturns := h.returns
  rw [returnsNothing, Bool.and_eq_true] at hreturns
  exact .start h.fits.2.2 (outsideDirectives_leaf.1 h.outsideRest).2 hreturns.2

/-- A word can be read with its run. -/
theorem Readable.word (h : Readable d run (leaf e rest)) (hends : e.kind.endsRun = false) (hsemi : e.kind ≠ .semicolon) :
    Readable d (run ++ leaf e nil) rest := by
  have hreturns := h.returns
  rw [returnsNothing, Bool.and_eq_true, decide_eq_true_eq] at hreturns
  have hrest := h.border
  refine ⟨isPlain_append.2 ⟨h.plain, hends, hsemi, hreturns.1, trivial⟩, hrest.fits, ?_, hrest.outsideRest, hrest.returns⟩
  exact outsideDirectives_append.2 ⟨h.outsideRun, outsideDirectives_leaf.2 ⟨h.outside, outsideDirectives_nil⟩⟩

/-- What is in a round bracket can be read by itself. -/
theorem Readable.within (h : Readable d run (group o inner c rest)) (hround : o.kind.opensRound = true) :
    Readable (d + 1) nil inner := by
  obtain ⟨-, -, -, hinner, -⟩ := h.fits
  have hreturns := h.returns
  rw [returnsNothing, hround, Bool.not_true, Bool.false_or, Bool.and_eq_true] at hreturns
  exact .start hinner (outsideDirectives_group.1 h.outsideRest).2.1 hreturns.1

/-- Behind a bracket the run can be read on, whatever became of what it holds. -/
theorem Readable.behind {inner' : Forest} (h : Readable d run (group o inner c rest)) (hdir : inner'.OutsideDirectives) :
    Readable d (run ++ group o inner' c nil) rest := by
  obtain ⟨⟨b, ho, -⟩, -, -, -, hrest⟩ := h.fits
  obtain ⟨hodir, -, hcdir, hrestdir⟩ := outsideDirectives_group.1 h.outsideRest
  have hreturns := h.returns
  rw [returnsNothing, Bool.and_eq_true] at hreturns
  refine ⟨isPlain_append.2 ⟨h.plain, by rw [ho]; rfl, trivial⟩, hrest, ?_, hrestdir, hreturns.2⟩
  exact outsideDirectives_append.2 ⟨h.outsideRun, outsideDirectives_group.2 ⟨hodir, hdir, hcdir, outsideDirectives_nil⟩⟩

/-! ## A run in parentheses -/

/-- Layout adds nothing to what has been read. -/
theorem reads_layout (h : F.IsLayout) (hplain : F.IsPlain) (f : Frame) : F.reads f = f := by
  induction F with
  | nil => rfl
  | leaf e rest ih =>
    have hrest := ih (fun x hx => h x (List.mem_cons_of_mem _ hx)) hplain.2.2.2
    have hsilent : e.lexeme.kind.isCode = false := by
      rcases Entry.isLayout_iff.1 (h e List.mem_cons_self) with hk | hk <;>
        · rw [Entry.kind] at hk
          rw [hk]
          rfl
    rw [reads, hrest, Frame.read, hsilent]
    simp
  | group o inner c rest _ _ =>
    have hbracket := hplain.1
    rcases Entry.isLayout_iff.1 (h o List.mem_cons_self) with hk | hk <;> rw [hk] at hbracket <;> cases hbracket

/-- A run in parentheses is read as one operand, the tree of the run by itself. -/
theorem Enclosed.reads_eq (h : Enclosed run run') (hplain : run.IsPlain) (f : Frame) :
    run'.reads f = f.add (run.reads {}).tree := by
  obtain @⟨lead, core, trail, o, c, x, y, hlead, htrail, -, -, -, -, ho, -⟩ := h
  obtain ⟨hfront, htrailPlain⟩ := isPlain_append.1 hplain
  obtain ⟨hleadPlain, -⟩ := isPlain_append.1 hfront
  have hshape : o.shape = .paren := by
    unfold Entry.shape Entry.kind
    rw [ho]
    rfl
  rw [reads_append, reads_layout hlead hleadPlain, reads, reads_layout htrail htrailPlain, reads_change_deepen, reads_append,
    reads_append, reads_layout hlead hleadPlain, reads_layout htrail htrailPlain, hshape]
  rfl

/-- A run without assignments is one operand with its parentheses and without them. -/
theorem Enclosed.sameOperand (h : Enclosed run run') (hplain : run.IsPlain) (hno : run.hasAssign = false) (hrow : f.row = []) :
    SameOperand (run.reads f) (run'.reads f) := by
  obtain ⟨ts, hts⟩ := exists_row hplain hno
  have htree : ({ row := ts } : Frame).tree = .ofRow ts := rfl
  rw [h.reads_eq hplain, hts, hts, hrow]
  refine ⟨?_, rfl⟩
  show Tree.ofRow (ts ++ []) = Tree.ofRow (({ row := ts ++ [] } : Frame).tree :: f.row)
  rw [List.append_nil, htree, hrow]
  rfl

/-- A run is one value with its parentheses and without them, where nothing joins it to what stands behind it. -/
theorem Enclosed.sameValue (h : Enclosed run run') (hplain : run.IsPlain) (hf : f.Fresh) :
    SameValue (run.reads f) (run'.reads f) := by
  obtain ⟨row, conjuncts, disjuncts, tail, commas, colons, statements⟩ := f
  obtain ⟨rfl, rfl, rfl, rfl⟩ := hf
  have hread := reads_plain hplain {} commas colons statements
  have halone := reads_plain hplain {} [] [] []
  have htree : (run.reads {}).tree = (run.reads {}).assignment := by
    rw [halone]
    rfl
  rw [h.reads_eq hplain, htree]
  rw [hread]
  exact ⟨rfl, rfl, rfl, rfl⟩

/-! ## A whole region -/

/-- What ends a run leaves nothing before it that could be joined to it, unless it is a logical operator or a `?`. -/
theorem fresh_read {x : Lexeme} (hdir : x.inDirective = false) (hends : x.kind.endsRun = true) (hlogical : x.kind ≠ .logical)
    (hquestion : x.kind ≠ .question) (f : Frame) : (f.read x).Fresh := by
  unfold Frame.read
  rw [hdir]
  cases hkind : x.kind with
  | condColon => exact ⟨rfl, rfl, rfl, rfl⟩
  | comma => exact ⟨rfl, rfl, rfl, rfl⟩
  | logical => exact absurd hkind hlogical
  | question => exact absurd hkind hquestion
  | _ => simp [hkind, Kind.endsRun] at hends

/-- What ends a run starts a new operand before it. -/
theorem row_read {x : Lexeme} (hdir : x.inDirective = false) (hends : x.kind.endsRun = true) (f : Frame) :
    (f.read x).row = [] := by
  unfold Frame.read
  rw [hdir]
  cases hkind : x.kind with
  | condColon => rfl
  | comma => rfl
  | logical =>
    show (f.joinLogical x.text).row = []
    unfold joinLogical
    split_ifs <;> rfl
  | question =>
    show f.ask.row = []
    unfold ask
    split <;> rfl
  | _ => simp [hkind, Kind.endsRun] at hends

/-- A scan that cuts nothing off leaves what is read as it was. -/
theorem Grouped.agrees (h : Grouped left compared run rest out) (hread : Readable d run rest)
    (hcuts : rest.cutsNothing left compared run.hasAssign = true) (hf : f.Fresh) :
    Agrees left ((run ++ rest).reads f) (out.reads f) := by
  induction h generalizing d f with
  | done _ =>
    rw [append_nil]
    exact .refl _ _
  | @doneEnclosed k run run' henc =>
    rw [append_nil]
    cases hassign : run.hasAssign with
    | false => exact (henc.sameOperand hread.plain hassign hf.row).agrees _
    | true =>
      refine (henc.sameValue hread.plain hf).agrees ?_
      simpa [cutsNothing, hassign] using hcuts
  | @border left run rest out e hends _ ih =>
    rw [cutsNothing_border hends, Bool.and_eq_true] at hcuts
    have hagrees := ih hread.border hcuts.2 hf
    rw [nil_append] at hagrees
    rw [reads_append, reads_append, reads, reads, hagrees.read_eq hread.outside (.inl hends)]
    exact .refl _ _
  | @borderEnclosed left run run' rest out e hends henc _ ih =>
    rw [cutsNothing_border hends, Bool.and_eq_true] at hcuts
    obtain ⟨hcut, hcuts⟩ := hcuts
    have hagrees := ih hread.border hcuts hf
    rw [nil_append] at hagrees
    rw [reads_append, reads_append, reads, reads, hagrees.read_eq hread.outside (.inl hends)]
    cases hassign : run.hasAssign with
    | false => exact (henc.sameOperand hread.plain hassign (row_read hread.outside hends _)).agrees _
    | true =>
      simp only [hassign, Bool.and_self, Bool.not_true, Bool.false_or, Bool.and_eq_true, decide_eq_true_eq] at hcut
      obtain ⟨⟨hleft, hlogical⟩, hquestion⟩ := hcut
      exact (henc.sameValue hread.plain (fresh_read hread.outside hends hlogical hquestion _)).agrees hleft
  | @compare left compared run rest out e hk _ ih =>
    have hends : e.kind.endsRun = false := by
      rw [hk]
      rfl
    have hsemi : e.kind ≠ .semicolon := by simp [hk]
    rw [cutsNothing_word hends hsemi, decide_eq_true hk, Bool.or_true] at hcuts
    have hagrees := ih (hread.word hends hsemi) hcuts hf
    rwa [append_assoc] at hagrees
  | @semicolon left compared run rest out e hk _ ih =>
    rw [cutsNothing_semicolon hk] at hcuts
    have hagrees := ih hread.border hcuts hf
    rw [nil_append, ← hk] at hagrees
    rw [reads_append, reads_append, reads, reads, hagrees.read_eq hread.outside (.inr hk)]
    exact .refl _ _
  | @word left compared run rest out e hends hcmp hsemi _ ih =>
    rw [cutsNothing_word hends hsemi, decide_eq_false hcmp, Bool.or_false] at hcuts
    have hagrees := ih (hread.word hends hsemi) hcuts hf
    rwa [append_assoc] at hagrees
  | @round left compared run inner inner' rest out o c hround hinner _ ihi ih =>
    have hreadi := hread.within hround
    rw [cutsNothing_group, hround, Bool.not_true, Bool.false_or, Bool.and_eq_true] at hcuts
    have hsame := ihi (f := {}) hreadi hcuts.1 ⟨rfl, rfl, rfl, rfl⟩
    rw [nil_append, Agrees, if_neg (by simp)] at hsame
    -- Either inside gives the same tree, so the bracket reads the same with either.
    have hinside : ∀ G : Forest, (group o inner c G).reads f = (group o inner' c G).reads f := fun G => by
      rw [reads, reads, bracketed, bracketed, hsame.tree_eq]
    have hcuts' : rest.cutsNothing left compared (run ++ group o inner' c nil).hasAssign = true := by
      simpa [hasAssign_append, hasAssign] using hcuts.2
    have hagrees := ih (hread.behind (hinner.outsideDirectives outsideDirectives_nil hreadi.outsideRest)) hcuts' hf
    rw [append_assoc, group_append, nil_append, reads_append, ← hinside, ← reads_append] at hagrees
    exact hagrees
  | @bracket left compared run inner rest out o c hround _ ih =>
    rw [cutsNothing_group, hround, Bool.not_false, Bool.true_or, Bool.true_and] at hcuts
    have hagrees := ih (hread.behind (outsideDirectives_group.1 hread.outsideRest).2.1) hcuts hf
    rwa [append_assoc] at hagrees

/-- A scan of a whole region that cuts nothing off leaves the value of the region as it was. -/
theorem Grouped.sameValue (h : Grouped none false nil F out) (hread : Readable d nil F)
    (hcuts : F.cutsNothing none false false = true) (hf : f.Fresh) : SameValue (F.reads f) (out.reads f) := by
  have hagrees := h.agrees hread hcuts hf
  rwa [nil_append, Agrees, if_neg (by simp)] at hagrees

/-! ## What a cut does -/

/-- Parentheses around a run make it no lighter. Around one with an assignment they make the operand heavier, and they sink the
assignment if the run stands in front of a logical operator or a `?`. -/
theorem Enclosed.gains (h : Enclosed run run') (hplain : run.IsPlain) (hdir : run.OutsideDirectives) (f : Frame) :
    (run.reads f).weight.Gains (if run.hasAssign then f.weight.aboveOperand else 0) (run'.reads f).weight ∧
      (run.hasAssign = true → (run.reads f).weight.Sinks (some .logical) (run'.reads f).weight) := by
  obtain ⟨hgains, -, hoperand, hconjunction⟩ := readAs_plain hplain hdir f
  rw [h.reads_eq hplain, weight_add]
  exact ⟨hgains, fun hassign => .inr ⟨rfl, hgains.mono (Nat.zero_le _), hoperand hassign, hconjunction hassign⟩⟩

/-- What starts a run in front of a logical operator or a `?` lies below it. -/
theorem aboveOperand_read {x : Lexeme} (hdir : x.inDirective = false) (hk : x.kind = .logical ∨ x.kind = .question) (f : Frame) :
    0 < (f.read x).weight.aboveOperand := by
  unfold Frame.read
  rw [hdir]
  rcases hk with hk | hk <;> rw [hk]
  · show 0 < (f.joinLogical x.text).weight.aboveOperand
    rw [weight_joinLogical, Weight.joinLogical]
    split_ifs <;> exact Nat.succ_pos _
  · show 0 < f.ask.weight.aboveOperand
    rw [weight_ask]
    exact Nat.one_pos

/-- A scan makes what is read no lighter, and it sinks an assignment that it cuts off. -/
theorem Grouped.gains (h : Grouped left compared run rest out) (hread : Readable d run rest) (f : Frame) :
    ((run ++ rest).reads f).weight.Gains 0 (out.reads f).weight ∧
      (rest.cutsNothing left compared run.hasAssign = false →
        ((run ++ rest).reads f).weight.Sinks left (out.reads f).weight) := by
  induction h generalizing d f with
  | @done left compared run hnone =>
    rw [append_nil]
    refine ⟨.refl _, ?_⟩
    intro hcuts
    rw [cutsNothing, Bool.or_eq_false_iff, Bool.not_eq_false', Bool.and_eq_true, decide_eq_false_iff_not, not_not] at hcuts
    rw [hnone hcuts.1.1] at hcuts
    cases hcuts.2
  | @doneEnclosed k run run' henc =>
    rw [append_nil]
    obtain ⟨hgains, hsinks⟩ := henc.gains hread.plain hread.outsideRun f
    refine ⟨hgains.mono (Nat.zero_le _), ?_⟩
    intro hcuts
    rw [cutsNothing, Bool.or_eq_false_iff, Bool.not_eq_false', Bool.and_eq_true, decide_eq_false_iff_not, not_not] at hcuts
    rw [hcuts.2]
    exact hsinks hcuts.1.2
  | @border left run rest out e hends _ ih =>
    obtain ⟨hgains, hsinks⟩ := ih hread.border f
    rw [nil_append] at hgains hsinks
    rw [reads_append, reads_append, reads, reads]
    refine ⟨gains_reads (gains_read hgains e.lexeme) run, ?_⟩
    intro hcuts
    rw [cutsNothing_border hends, Bool.false_and, Bool.not_false, Bool.true_or, Bool.true_and] at hcuts
    exact .inl (gains_reads (sinks_read (hsinks hcuts) hread.outside) run)
  | @borderEnclosed left run run' rest out e hends henc _ ih =>
    obtain ⟨hgains, hsinks⟩ := ih hread.border f
    rw [nil_append] at hgains hsinks
    rw [reads_append, reads_append, reads, reads]
    obtain ⟨hrun, hcut⟩ := henc.gains hread.plain hread.outsideRun ((out.reads f).read e.lexeme)
    have hborder := gains_reads (gains_read hgains e.lexeme) run
    refine ⟨hborder.trans (hrun.mono (Nat.zero_le _)), ?_⟩
    intro hcuts
    rw [cutsNothing_border hends, Bool.and_eq_false_iff] at hcuts
    rcases hcuts with hcut' | hcuts
    · simp only [Bool.true_and, Bool.or_eq_false_iff, Bool.not_eq_false', Bool.and_eq_false_iff, decide_eq_false_iff_not,
        not_not, or_assoc] at hcut'
      obtain ⟨hassign, hleft | hright⟩ := hcut'
      · rw [hleft]
        exact hborder.trans_sinks (hcut hassign)
      · rw [hassign] at hrun
        exact .inl (hborder.trans (hrun.mono (aboveOperand_read hread.outside hright _)))
    · exact .inl ((gains_reads (sinks_read (hsinks hcuts) hread.outside) run).trans (hrun.mono (Nat.zero_le _)))
  | @compare left compared run rest out e hk _ ih =>
    have hends : e.kind.endsRun = false := by
      rw [hk]
      rfl
    have hsemi : e.kind ≠ .semicolon := by simp [hk]
    have hgains := ih (hread.word hends hsemi) f
    rw [append_assoc] at hgains
    rw [cutsNothing_word hends hsemi, decide_eq_true hk, Bool.or_true]
    exact hgains
  | @semicolon left compared run rest out e hk _ ih =>
    obtain ⟨hgains, hsinks⟩ := ih hread.border f
    rw [nil_append] at hgains
    rw [nil_append, ← hk] at hsinks
    rw [reads_append, reads_append, reads, reads]
    refine ⟨gains_reads (gains_read hgains e.lexeme) run, ?_⟩
    intro hcuts
    rw [cutsNothing_semicolon hk, ← hk] at hcuts
    exact .inl (gains_reads (sinks_read (hsinks hcuts) hread.outside) run)
  | @word left compared run rest out e hends hcmp hsemi _ ih =>
    have hgains := ih (hread.word hends hsemi) f
    rw [append_assoc] at hgains
    rw [cutsNothing_word hends hsemi, decide_eq_false hcmp, Bool.or_false]
    exact hgains
  | @round left compared run inner inner' rest out o c hround hinner _ ihi ih =>
    have hreadi := hread.within hround
    obtain ⟨hinside, hsinksi⟩ := ihi hreadi {}
    rw [nil_append] at hinside hsinksi
    obtain ⟨hgains, hsinks⟩ := ih (hread.behind (hinner.outsideDirectives outsideDirectives_nil hreadi.outsideRest)) f
    rw [append_assoc, group_append, nil_append] at hgains hsinks
    -- What the bracket holds gains first, and then what the bracket stands in.
    have hbracket : ∀ {n : Nat}, (inner.reads {}).weight.Gains n (inner'.reads {}).weight →
        ((run ++ group o inner c rest).reads f).weight.Gains n ((run ++ group o inner' c rest).reads f).weight := by
      intro n hn
      obtain ⟨hassignments, hsunk⟩ := bracketed_gains hn o.shape
      rw [reads_append, reads_append, reads, reads]
      refine gains_reads ?_ run
      rw [← Nat.zero_add n]
      exact gains_add (.refl _) hassignments hsunk
    refine ⟨(hbracket hinside).trans hgains, ?_⟩
    intro hcuts
    rw [cutsNothing_group, hround, Bool.not_true, Bool.false_or, Bool.and_eq_false_iff] at hcuts
    rcases hcuts with hcuts | hcuts
    · rcases hsinksi hcuts with hsunk | ⟨hnone, -⟩
      · exact .inl ((hbracket hsunk).trans hgains)
      · cases hnone
    · refine (hbracket hinside).trans_sinks (hsinks ?_)
      simpa [hasAssign_append, hasAssign] using hcuts
  | @bracket left compared run inner rest out o c hround _ ih =>
    have hgains := ih (hread.behind (outsideDirectives_group.1 hread.outsideRest).2.1) f
    rw [append_assoc, group_append, nil_append] at hgains
    rw [cutsNothing_group, hround, Bool.not_false, Bool.true_or, Bool.true_and]
    exact hgains

/-- A scan of a whole region sinks an assignment that it cuts off. -/
theorem Grouped.sinks (h : Grouped none false nil F out) (hread : Readable d nil F)
    (hcuts : F.cutsNothing none false false = false) (f : Frame) : (F.reads f).weight.Gains 1 (out.reads f).weight := by
  rcases (h.gains hread f).2 hcuts with hsunk | ⟨hnone, -⟩
  · rwa [nil_append] at hsunk
  · cases hnone

end Forest

end CodeGroom
