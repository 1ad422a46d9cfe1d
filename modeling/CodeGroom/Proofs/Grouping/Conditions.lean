import CodeGroom.Proofs.Grouping.Regions

/-!
# The pass over conditions

On matched brackets the pass scans every condition of an `if` or a `switch` that does not lie in another one, each to its closing
parenthesis. It keeps brackets matched and depths right, and leaves nothing for a second pass to do.
-/

namespace CodeGroom

/-- Whether the entry opens a condition that is to be scanned. -/
def Entry.opensScannedCondition (e : Entry) : Bool :=
  e.kind = .opening .condition && e.lexeme.owner.ownsScannedCondition

namespace Forest

/-- What the pass over conditions makes of a forest. -/
inductive Conditioned : Forest → Forest → Prop where
  | nil : Conditioned nil nil
  | leaf {e : Entry} {rest rest' : Forest} : Conditioned rest rest' → Conditioned (leaf e rest) (leaf e rest')
  | condition {o c : Entry} {inner inner' rest rest' : Forest} :
      o.opensScannedCondition = true → Scanned inner inner' → Conditioned rest rest' →
      Conditioned (group o inner c rest) (group o inner' c rest')
  | bracket {o c : Entry} {inner inner' rest rest' : Forest} :
      o.opensScannedCondition = false → Conditioned inner inner' → Conditioned rest rest' →
      Conditioned (group o inner c rest) (group o inner' c rest')

variable {F G H : Forest} {d : Int}

theorem Conditioned.fits (h : Conditioned F G) (hf : F.Fits d) : G.Fits d := by
  induction h generalizing d with
  | nil => exact hf
  | leaf _ ih => exact ⟨hf.1, hf.2.1, ih hf.2.2⟩
  | condition _ hscanned _ ih =>
    obtain ⟨hb, hd, hdir, hinner, hrest⟩ := hf
    exact ⟨hb, hd, hdir, hscanned.fits hinner, ih hrest⟩
  | bracket _ _ _ ihi ih =>
    obtain ⟨hb, hd, hdir, hinner, hrest⟩ := hf
    exact ⟨hb, hd, hdir, ihi hinner, ih hrest⟩

/-- A second pass leaves a forest as the first one has made it. -/
theorem Conditioned.eq_of_conditioned (h : Conditioned F G) (h' : Conditioned G H) : H = G := by
  induction h generalizing H with
  | nil =>
    cases h'
    rfl
  | leaf _ ih =>
    cases h' with
    | leaf h' => rw [ih h']
  | condition hopens hscanned _ ih =>
    cases h' with
    | condition _ hscanned' h' => rw [ih h', hscanned.eq_of_scanned hscanned']
    | bracket hnot _ _ =>
      rw [hopens] at hnot
      cases hnot
  | bracket hopens _ _ ihi ih =>
    cases h' with
    | condition hyes _ _ =>
      rw [hopens] at hyes
      cases hyes
    | bracket _ hinner' h' => rw [ih h', ihi hinner']

end Forest

namespace Grouping

variable {g : Grouping} {p q : List Entry} {e o w : Entry} {inner : Forest} {d : Int}

/-- A visit of anything but a condition to scan does nothing. -/
theorem visitCondition_other (h : g.strand.Lists (p ++ e :: q)) (he : e.opensScannedCondition = false) :
    g.visitCondition e.name = (g, e.name) := by
  have hmem : e ∈ p ++ e :: q := by simp
  unfold visitCondition
  dsimp only
  rw [h.kind_eq hmem, h.owner_eq hmem]
  refine if_neg ?_
  simpa [Entry.opensScannedCondition] using he

/-- A visit of a condition to scan scans it up to its closing parenthesis and goes on there. -/
theorem visitCondition_condition (h : g.strand.Lists (p ++ o :: (inner.flatten ++ w :: q))) (hinner : inner.Fits (d + 1))
    (ho : o.opensScannedCondition = true) (hw : w.kind = .closing .condition) (hod : o.depth = d) (hwd : w.depth = d)
    (hodir : o.inDirective = false) (hwdir : w.inDirective = false) :
    g.visitCondition o.name = (g.scan ⟨some o.name, some w.name, 0⟩, w.name) := by
  have hmem : o ∈ p ++ o :: (inner.flatten ++ w :: q) := by simp
  have hdepth : (g.strand.lexeme (some o.name)).depth = d := by rw [h.depth_eq hmem, hod]
  -- What stands inside lies deeper, so the closing parenthesis at this depth is the one of the condition.
  have hskip : inner.flatten.find? (fun x => !x.inDirective && (x.kind = .closing .condition && x.depth = d)) = none := by
    refine List.find?_eq_none.2 ?_
    intro x hx
    have hle := hinner.le_depth x hx
    have hne : x.depth ≠ d := by omega
    simp [hne]
  have hnext : g.strand.nextOfKind (some o.name) (.closing .condition) (some d) .sameSide = some w.name := by
    rw [h.nextOfKind_eq hodir, List.find?_append, hskip, Option.none_or, List.find?_cons]
    simp [hw, hwd, hwdir]
  unfold visitCondition
  dsimp only
  rw [h.kind_eq hmem, h.owner_eq hmem]
  refine (if_pos ?_).trans ?_
  · simpa [Entry.opensScannedCondition] using ho
  · rw [scanTo, hdepth, hnext]

/-- At the end of the strand nothing is visited. -/
theorem visitAll_none {visit : Grouping → Nat → Grouping × Nat} (t : Countdown) (g : Grouping) : visitAll visit t none g = g := by
  cases t <;> rfl

/-- A visit, and those behind it. -/
theorem visitAll_step {visit : Grouping → Nat → Grouping × Nat} {rest : Nat → Countdown} {i j : Nat} {g g' : Grouping}
    (h : visit g i = (g', j)) :
    visitAll visit (.step rest) (some i) g = visitAll visit (rest g'.strand.size) (g'.strand.nextCode (some j)) g' := by
  rw [visitAll, h]

/-- What is ahead in a listing is no longer than the strand. -/
theorem within_size {es : List Entry} (h : g.strand.Lists (p ++ es)) : (⟨0, 0, es.length⟩ : Distance).Within g.strand.size := by
  have hlength := h.linked.length_eq
  simp only [Entry.names, List.length_map, List.length_append] at hlength
  exact ⟨Nat.zero_le _, Nat.zero_le _, by dsimp only; omega⟩

open Forest Distance in
/-- The walk of the pass through matched brackets. Every entry takes one step at most. -/
theorem visitAll_conditioned {F : Forest} {t : Countdown} (h : g.strand.Lists (p ++ (F.flatten ++ q))) (hfits : F.Fits d)
    (ht : t.Outlasts ⟨0, 0, (F.flatten ++ q).length⟩) : ∃ (t' : Countdown) (g' : Grouping) (F' : Forest), F.Conditioned F' ∧
      t'.Outlasts ⟨0, 0, q.length⟩ ∧
      visitAll visitCondition t (nextName (F.flatten ++ q)) g = visitAll visitCondition t' (nextName q) g' ∧
      g'.strand.Lists (p ++ (F'.flatten ++ q)) := by
  induction F generalizing t g p q d with
  | nil => exact ⟨t, g, .nil, .nil, ht, rfl, h⟩
  | leaf e rest ih =>
    have hrest : g.strand.Lists ((p ++ [e]) ++ (rest.flatten ++ q)) := by simpa using h
    have hlists : g.strand.Lists (p ++ e :: (rest.flatten ++ q)) := by simpa using h
    have hnot : e.opensScannedCondition = false := by
      have hk := hfits.1
      unfold Entry.opensScannedCondition
      cases hkind : e.kind <;> simp_all [Kind.isBracket]
    have hshorter : (⟨0, 0, (rest.flatten ++ q).length⟩ : Distance).Less ⟨0, 0, ((leaf e rest).flatten ++ q).length⟩ :=
      less_of_length (by simp)
    cases hlayout : e.isLayout with
    | true =>
      obtain ⟨t', g', F', hF', ht', hwalk, hlists'⟩ := ih hrest hfits.2.2 (ht.mono hshorter)
      refine ⟨t', g', .leaf e F', .leaf hF', ht', ?_, by simpa using hlists'⟩
      rw [flatten_leaf, List.cons_append, nextName_layout _ hlayout, hwalk]
    | false =>
      obtain ⟨more, rfl, hmore⟩ := ht.exists_step
      obtain ⟨t', g', F', hF', ht', hwalk, hlists'⟩ := ih hrest hfits.2.2 (hmore _ _ (within_size hrest) hshorter)
      refine ⟨t', g', .leaf e F', .leaf hF', ht', ?_, by simpa using hlists'⟩
      rw [flatten_leaf, List.cons_append, nextName_code _ hlayout, visitAll_step (visitCondition_other hlists hnot),
        hlists.nextCode_eq, ← hwalk]
      rfl
  | group o inner w rest ihi ih =>
    obtain ⟨⟨b, ho, hw⟩, ⟨hod, hwd⟩, ⟨hodir, hwdir⟩, hinner, hrest⟩ := hfits
    have hlists : g.strand.Lists (p ++ o :: (inner.flatten ++ w :: (rest.flatten ++ q))) := by simpa using h
    obtain ⟨more, rfl, hmore⟩ := ht.exists_step
    have hfirst : nextName ((group o inner w rest).flatten ++ q) = some o.name := by
      rw [flatten_group, List.cons_append, nextName_code _ (isLayout_of_opening ho)]
    cases hopens : o.opensScannedCondition with
    | true =>
      have hwkind : w.kind = .closing .condition := by
        have hkind : o.kind = .opening .condition := by
          simp only [Entry.opensScannedCondition, Bool.and_eq_true, decide_eq_true_eq] at hopens
          exact hopens.1
        rw [hkind] at ho
        rw [hw, ← Kind.opening.inj ho]
      obtain ⟨inner', hscanned, hbecame⟩ := scan_scanned 0 hlists hinner (isLayout_of_closing hw) hwdir
      have hlists' : (g.scan ⟨some o.name, some w.name, 0⟩).strand.Lists
          ((p ++ o :: inner'.flatten) ++ w :: (rest.flatten ++ q)) := by simpa using hbecame.lists
      have hrest' : (g.scan ⟨some o.name, some w.name, 0⟩).strand.Lists
          ((p ++ o :: (inner'.flatten ++ [w])) ++ (rest.flatten ++ q)) := by simpa using hbecame.lists
      have hmore' := hmore _ _ (within_size hrest') (less_of_length (by simp; omega))
      obtain ⟨t', g', F', hF', ht', hwalk, hlists''⟩ := ih hrest' hrest hmore'
      refine ⟨t', g', .group o inner' w F', .condition hopens hscanned hF', ht', ?_, by simpa using hlists''⟩
      rw [hfirst, visitAll_step (visitCondition_condition hlists hinner hopens hwkind hod hwd hodir hwdir),
        hlists'.nextCode_eq, ← hwalk]
      rfl
    | false =>
      have hinnerLists : g.strand.Lists ((p ++ [o]) ++ (inner.flatten ++ w :: (rest.flatten ++ q))) := by simpa using h
      obtain ⟨t', g', inner', hinner', ht', hwalk, hlists'⟩ :=
        ihi hinnerLists hinner (hmore _ _ (within_size hinnerLists) (less_of_length (by simp)))
      obtain ⟨more', rfl, hmore'⟩ := ht'.exists_step
      have hwLists : g'.strand.Lists ((p ++ o :: inner'.flatten) ++ w :: (rest.flatten ++ q)) := by simpa using hlists'
      have hrestLists : g'.strand.Lists ((p ++ o :: (inner'.flatten ++ [w])) ++ (rest.flatten ++ q)) := by
        simpa using hlists'
      have hnotw : w.opensScannedCondition = false := by simp [Entry.opensScannedCondition, hw]
      obtain ⟨t'', g'', F', hF', ht'', hwalk', hlists''⟩ :=
        ih hrestLists hrest (hmore' _ _ (within_size hrestLists) (less_of_length (by simp)))
      refine ⟨t'', g'', .group o inner' w F', .bracket hopens hinner' hF', ht'', ?_, by simpa using hlists''⟩
      rw [hfirst, visitAll_step (visitCondition_other hlists hopens), hlists.nextCode_eq]
      refine hwalk.trans ?_
      rw [nextName_code _ (isLayout_of_closing hw), visitAll_step (visitCondition_other hwLists hnotw), hwLists.nextCode_eq]
      exact hwalk'

/-- The walk of a pass starts at the first lexeme, which may be layout. -/
theorem exists_visitAll_first {visit : Grouping → Nat → Grouping × Nat} {es : List Entry} (h : g.strand.Lists es)
    (hlayout : ∀ e ∈ es, e.isLayout = true → visit g e.name = (g, e.name)) : ∃ t : Countdown, t.Outlasts ⟨0, 0, es.length⟩ ∧
      visitAll visit .full g.strand.first g = visitAll visit t (nextName es) g := by
  rw [h.linked.first_eq]
  cases es with
  | nil => exact ⟨.full, Countdown.outlasts_full _, rfl⟩
  | cons e es =>
    cases he : e.isLayout with
    | true =>
      have hlists : g.strand.Lists ([] ++ e :: es) := h
      obtain ⟨more, hfull, hmore⟩ := (Countdown.outlasts_full ⟨0, 0, (e :: es).length + 1⟩).exists_step
      refine ⟨more g.strand.size, hmore _ _ (within_size hlists) (.inr ⟨rfl, .inr ⟨rfl, Nat.lt_succ_self _⟩⟩), ?_⟩
      rw [Entry.names_cons, List.head?_cons, hfull, visitAll_step (hlayout e List.mem_cons_self he), hlists.nextCode_eq,
        nextName_layout _ he]
      rfl
    | false =>
      refine ⟨.full, Countdown.outlasts_full _, ?_⟩
      rw [nextName_code _ he]
      rfl

/-- What the pass makes of a strand with matched brackets, if the language is not left out. -/
theorem conditions_conditioned {st : Style} {F : Forest} (h : g.strand.Lists F.flatten) (hfits : F.Fits 0)
    (hallowed : g.allowed st = true) :
    ∃ F', F.Conditioned F' ∧ (g.conditions st).strand.Lists F'.flatten := by
  have hlayout : ∀ e ∈ F.flatten, e.isLayout = true → g.visitCondition e.name = (g, e.name) := by
    intro e he hl
    obtain ⟨p, q, hsplit⟩ := List.append_of_mem he
    rw [hsplit] at h
    refine visitCondition_other h ?_
    rcases Entry.isLayout_iff.1 hl with hk | hk <;> simp [Entry.opensScannedCondition, hk]
  obtain ⟨t, ht, hfirst⟩ := exists_visitAll_first h hlayout
  have hlists : g.strand.Lists ([] ++ (F.flatten ++ [])) := by simpa using h
  rw [← List.append_nil F.flatten] at ht hfirst
  obtain ⟨t', g', F', hF', -, hwalk, hlists'⟩ := visitAll_conditioned hlists hfits ht
  refine ⟨F', hF', ?_⟩
  rw [conditions, pass, if_pos hallowed, hfirst, hwalk]
  show (visitAll _ _ none g').strand.Lists _
  rw [visitAll_none]
  simpa using hlists'

/-- The pass over conditions keeps a well-linked, well-bracketed strand well linked and well bracketed, and a second pass inserts
nothing and changes no lexeme. -/
theorem conditions_settles (st : Style) (g : Grouping) (hlinked : g.strand.WellLinked) (hbracketed : g.strand.WellBracketed) :
    (g.conditions st).strand.WellLinked ∧ (g.conditions st).strand.WellBracketed ∧
      ((g.conditions st).conditions st).strand = (g.conditions st).strand ∧
      ((g.conditions st).conditions st).pairs = (g.conditions st).pairs := by
  have hoff : ∀ g : Grouping, g.allowed st = false →
      (g.conditions st).strand = g.strand ∧ (g.conditions st).pairs = g.pairs := fun g h => by
    simp [conditions, pass, h, noteOff, note]
  cases hallowed : g.allowed st with
  | false =>
    have hagain : (g.conditions st).allowed st = false := by
      rw [allowed, (hoff g hallowed).1]
      exact hallowed
    obtain ⟨hstrand, hpairs⟩ := hoff _ hagain
    rw [hstrand, hpairs, (hoff g hallowed).1]
    exact ⟨hlinked, hbracketed, rfl, rfl⟩
  | true =>
    have hlists := hlinked.lists
    obtain ⟨F, hes, hfits⟩ := hlists.wellBracketed_iff.1 hbracketed
    rw [hes] at hlists
    obtain ⟨F', hF', hlists'⟩ := conditions_conditioned hlists hfits hallowed
    refine ⟨hlists'.linked.wellLinked, hlists'.wellBracketed_iff.2 ⟨F', rfl, hF'.fits hfits⟩, ?_⟩
    cases hagain : (g.conditions st).allowed st with
    | false => exact hoff _ hagain
    | true =>
      -- The second pass lists the same entries, so it has inserted no pair.
      obtain ⟨F'', hF'', hlists''⟩ := conditions_conditioned hlists' (hF'.fits hfits) hagain
      rw [hF'.eq_of_conditioned hF''] at hlists''
      have hsize : ((g.conditions st).conditions st).strand.size = (g.conditions st).strand.size := by
        rw [← hlists''.linked.length_eq, ← hlists'.linked.length_eq]
      exact (Extends.conditions st (g.conditions st)).eq_of_size_eq hsize

/-- The condition `if(a==b&&c)`, without its spelling. -/
def plainCondition : Grouping := start (.ofLexemes "c"
  [{ kind := .ifWord, text := [] }, { kind := .opening .condition, text := [], owner := .ifWord },
    { kind := .word, text := [], depth := 1 }, { kind := .compare, text := [], depth := 1 },
    { kind := .word, text := [], depth := 1 }, { kind := .logical, text := [], depth := 1 },
    { kind := .word, text := [], depth := 1 }, { kind := .closing .condition, text := [] }])

theorem conditions_plainCondition : plainCondition.strand.WellLinked ∧ plainCondition.strand.WellBracketed ∧
    (plainCondition.conditions {}).pairs = [⟨8, 9, ⟨some 1, some 7, 0⟩⟩] ∧
    (plainCondition.conditions {}).strand.WellBracketed := by
  have hlinked : plainCondition.strand.WellLinked := Strand.wellLinked_ofLexemes _ _
  have hbracketed : plainCondition.strand.WellBracketed := by
    show wellBracketed [] (plainCondition.strand).lexemes = true
    rw [Strand.lexemes, plainCondition, start, Strand.map_lexeme_order_ofLexemes]
    decide
  have hpairs : (plainCondition.conditions {}).pairs = [⟨8, 9, ⟨some 1, some 7, 0⟩⟩] := by decide +kernel
  exact ⟨hlinked, hbracketed, hpairs, (conditions_settles {} plainCondition hlinked hbracketed).2.1⟩

end Grouping

end CodeGroom
