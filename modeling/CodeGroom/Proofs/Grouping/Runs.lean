import CodeGroom.Grouping.Scan
import CodeGroom.Proofs.Bracket.Forest

/-!
# What a scan makes of matched brackets

On matched brackets a scan is a function of the forest alone: it goes along the entries of a region and keeps the run that it is
in, what that run stands behind, and whether a comparison was met in it. This file describes that as a relation between forests.
What comes out is matched again, and a further scan finds nothing to enclose in it.
-/

namespace CodeGroom

/-- Whether the lexeme opens a round bracket. -/
def Kind.opensRound : Kind → Bool
  | opening b => b.isRound
  | _ => false

namespace Forest

open Grouping

/-- The forest holds nothing but comments and line breaks. -/
def IsLayout (F : Forest) : Prop := ∀ e ∈ F.flatten, e.isLayout = true

/-- The second forest is the first one with its code in parentheses; comments and line breaks at its ends stay outside. -/
inductive Enclosed : Forest → Forest → Prop where
  | intro {lead core trail : Forest} {o c x y : Entry} :
      lead.IsLayout → trail.IsLayout → core.flatten.head? = some x → core.flatten.getLast? = some y →
      x.isLayout = false → y.isLayout = false →
      o.lexeme = (openingBefore x.lexeme).bare → c.lexeme = (closingAfter y.lexeme).bare →
      Enclosed (lead ++ core ++ trail) (lead ++ group o (core.change deepen) c trail)

/-- What a scan makes of a run and of what follows it. The run stands behind an entry of the kind `left`, or at the start of its
region when there is none, and `compared` says whether a comparison was met in it. -/
inductive Grouped : Option Kind → Bool → Forest → Forest → Forest → Prop where
  | done {left : Option Kind} {compared : Bool} {run : Forest} :
      (compared = true → left = none) → Grouped left compared run nil run
  | doneEnclosed {k : Kind} {run run' : Forest} : Enclosed run run' → Grouped (some k) true run nil run'
  | border {left : Option Kind} {run rest out : Forest} {e : Entry} :
      e.kind.endsRun = true → Grouped (some e.kind) false nil rest out →
      Grouped left false run (leaf e rest) (run ++ leaf e out)
  | borderEnclosed {left : Option Kind} {run run' rest out : Forest} {e : Entry} :
      e.kind.endsRun = true → Enclosed run run' → Grouped (some e.kind) false nil rest out →
      Grouped left true run (leaf e rest) (run' ++ leaf e out)
  | compare {left : Option Kind} {compared : Bool} {run rest out : Forest} {e : Entry} :
      e.kind = .compare → Grouped left true (run ++ leaf e nil) rest out → Grouped left compared run (leaf e rest) out
  | semicolon {left : Option Kind} {compared : Bool} {run rest out : Forest} {e : Entry} :
      e.kind = .semicolon → Grouped (some .semicolon) false nil rest out →
      Grouped left compared run (leaf e rest) (run ++ leaf e out)
  | word {left : Option Kind} {compared : Bool} {run rest out : Forest} {e : Entry} :
      e.kind.endsRun = false → e.kind ≠ .compare → e.kind ≠ .semicolon →
      Grouped left compared (run ++ leaf e nil) rest out → Grouped left compared run (leaf e rest) out
  | round {left : Option Kind} {compared : Bool} {run inner inner' rest out : Forest} {o c : Entry} :
      o.kind.opensRound = true → Grouped none false nil inner inner' →
      Grouped left compared (run ++ group o inner' c nil) rest out → Grouped left compared run (group o inner c rest) out
  | bracket {left : Option Kind} {compared : Bool} {run inner rest out : Forest} {o c : Entry} :
      o.kind.opensRound = false → Grouped left compared (run ++ group o inner c nil) rest out →
      Grouped left compared run (group o inner c rest) out

variable {F G run run' rest out : Forest} {left : Option Kind} {compared : Bool} {d : Int} {e : Entry}

/-! ## Matched brackets stay matched -/

/-- What is one level deeper fits there. -/
theorem fits_change_deepen (h : F.Fits d) : (F.change deepen).Fits (d + 1) := by
  induction F generalizing d with
  | nil => trivial
  | leaf e rest ih =>
    obtain ⟨hk, hd, hrest⟩ := h
    refine ⟨hk, ?_, ih hrest⟩
    show e.depth + 1 = d + 1
    rw [hd]
  | group o inner c rest ihi ih =>
    obtain ⟨hb, ⟨ho, hc⟩, hdir, hinner, hrest⟩ := h
    refine ⟨hb, ⟨?_, ?_⟩, hdir, ihi hinner, ih hrest⟩
    · show o.depth + 1 = d + 1
      rw [ho]
    · show c.depth + 1 = d + 1
      rw [hc]

/-- A run in parentheses fits where it did. -/
theorem Enclosed.fits (h : Enclosed run run') (hf : run.Fits d) (hdir : run.OutsideDirectives) : run'.Fits d := by
  obtain @⟨lead, core, trail, o, c, x, y, -, -, hx, hy, -, -, ho, hc⟩ := h
  obtain ⟨hleadcore, htrail⟩ := fits_append.1 hf
  obtain ⟨hlead, hcore⟩ := fits_append.1 hleadcore
  have hcoredir := (outsideDirectives_append.1 (outsideDirectives_append.1 hdir).1).2
  refine fits_append.2 ⟨hlead, ⟨.paren, ?_, ?_⟩, ⟨?_, ?_⟩, ⟨?_, ?_⟩, fits_change_deepen hcore, htrail⟩
  · rw [Entry.kind, ho]
    rfl
  · rw [Entry.kind, hc]
    rfl
  · rw [Entry.depth, ho]
    exact hcore.depth_head hx
  · rw [Entry.depth, hc]
    exact hcore.depth_getLast hy
  · rw [Entry.inDirective, ho]
    exact hcoredir x (List.mem_of_head? hx)
  · rw [Entry.inDirective, hc]
    exact hcoredir y (List.mem_of_getLast? hy)

theorem outsideDirectives_change_deepen (h : F.OutsideDirectives) : (F.change deepen).OutsideDirectives := by
  intro e he
  rw [flatten_change] at he
  obtain ⟨x, hx, rfl⟩ := List.mem_map.1 he
  exact h x hx

/-- Parentheses around a run bring no directive. -/
theorem Enclosed.outsideDirectives (h : Enclosed run run') (hdir : run.OutsideDirectives) : run'.OutsideDirectives := by
  obtain @⟨lead, core, trail, o, c, x, y, -, -, hx, hy, -, -, ho, hc⟩ := h
  obtain ⟨hleadcore, htrail⟩ := outsideDirectives_append.1 hdir
  obtain ⟨hlead, hcore⟩ := outsideDirectives_append.1 hleadcore
  refine outsideDirectives_append.2 ⟨hlead, outsideDirectives_group.2 ⟨?_, outsideDirectives_change_deepen hcore, ?_, htrail⟩⟩
  · rw [Entry.inDirective, ho]
    exact hcore x (List.mem_of_head? hx)
  · rw [Entry.inDirective, hc]
    exact hcore y (List.mem_of_getLast? hy)

/-- Enclosing a run takes nothing out of it and leaves its order. -/
theorem Enclosed.names_sublist (h : Enclosed run run') :
    (Entry.names run.flatten).Sublist (Entry.names run'.flatten) := by
  obtain @⟨lead, core, trail, o, c, x, y, -, -, -, -, -, -, -, -⟩ := h
  simp only [flatten_append, flatten_group, flatten_change, Entry.names_append, Entry.names_cons, Entry.names_map_change,
    List.append_assoc]
  refine List.Sublist.append_left (.cons _ (List.Sublist.append_left (.cons _ (.refl _)) _)) _

/-- Grouping brings no directive. -/
theorem Grouped.outsideDirectives (h : Grouped left compared run rest out) (hrun : run.OutsideDirectives)
    (hrest : rest.OutsideDirectives) : out.OutsideDirectives := by
  induction h with
  | done _ => exact hrun
  | doneEnclosed henc => exact henc.outsideDirectives hrun
  | border _ _ ih =>
    obtain ⟨he, hrest⟩ := outsideDirectives_leaf.1 hrest
    have hout := ih outsideDirectives_nil hrest
    exact outsideDirectives_append.2 ⟨hrun, outsideDirectives_leaf.2 ⟨he, hout⟩⟩
  | borderEnclosed _ henc _ ih =>
    obtain ⟨he, hrest⟩ := outsideDirectives_leaf.1 hrest
    have hout := ih outsideDirectives_nil hrest
    exact outsideDirectives_append.2 ⟨henc.outsideDirectives hrun, outsideDirectives_leaf.2 ⟨he, hout⟩⟩
  | compare _ _ ih =>
    obtain ⟨he, hrest⟩ := outsideDirectives_leaf.1 hrest
    exact ih (outsideDirectives_append.2 ⟨hrun, outsideDirectives_leaf.2 ⟨he, outsideDirectives_nil⟩⟩) hrest
  | semicolon _ _ ih =>
    obtain ⟨he, hrest⟩ := outsideDirectives_leaf.1 hrest
    have hout := ih outsideDirectives_nil hrest
    exact outsideDirectives_append.2 ⟨hrun, outsideDirectives_leaf.2 ⟨he, hout⟩⟩
  | word _ _ _ _ ih =>
    obtain ⟨he, hrest⟩ := outsideDirectives_leaf.1 hrest
    exact ih (outsideDirectives_append.2 ⟨hrun, outsideDirectives_leaf.2 ⟨he, outsideDirectives_nil⟩⟩) hrest
  | round _ _ _ ihi ih =>
    obtain ⟨ho, hinner, hc, hrest⟩ := outsideDirectives_group.1 hrest
    have hinner' := ihi outsideDirectives_nil hinner
    exact ih (outsideDirectives_append.2 ⟨hrun, outsideDirectives_group.2 ⟨ho, hinner', hc, outsideDirectives_nil⟩⟩) hrest
  | bracket _ _ ih =>
    obtain ⟨ho, hinner, hc, hrest⟩ := outsideDirectives_group.1 hrest
    exact ih (outsideDirectives_append.2 ⟨hrun, outsideDirectives_group.2 ⟨ho, hinner, hc, outsideDirectives_nil⟩⟩) hrest

/-- A scan leaves brackets matched and depths right. -/
theorem Grouped.fits (h : Grouped left compared run rest out) (hrun : run.Fits d) (hrest : rest.Fits d)
    (hrundir : run.OutsideDirectives) (hrestdir : rest.OutsideDirectives) : out.Fits d := by
  induction h generalizing d with
  | done _ => exact hrun
  | doneEnclosed henc => exact henc.fits hrun hrundir
  | border _ _ ih =>
    obtain ⟨hk, hd, hrest⟩ := hrest
    have hout := ih trivial hrest outsideDirectives_nil (outsideDirectives_leaf.1 hrestdir).2
    exact fits_append.2 ⟨hrun, hk, hd, hout⟩
  | borderEnclosed _ henc _ ih =>
    obtain ⟨hk, hd, hrest⟩ := hrest
    have hout := ih trivial hrest outsideDirectives_nil (outsideDirectives_leaf.1 hrestdir).2
    exact fits_append.2 ⟨henc.fits hrun hrundir, hk, hd, hout⟩
  | compare _ _ ih =>
    obtain ⟨hk, hd, hrest⟩ := hrest
    obtain ⟨he, hrestdir⟩ := outsideDirectives_leaf.1 hrestdir
    exact ih (fits_append.2 ⟨hrun, hk, hd, trivial⟩) hrest
      (outsideDirectives_append.2 ⟨hrundir, outsideDirectives_leaf.2 ⟨he, outsideDirectives_nil⟩⟩) hrestdir
  | semicolon _ _ ih =>
    obtain ⟨hk, hd, hrest⟩ := hrest
    have hout := ih trivial hrest outsideDirectives_nil (outsideDirectives_leaf.1 hrestdir).2
    exact fits_append.2 ⟨hrun, hk, hd, hout⟩
  | word _ _ _ _ ih =>
    obtain ⟨hk, hd, hrest⟩ := hrest
    obtain ⟨he, hrestdir⟩ := outsideDirectives_leaf.1 hrestdir
    exact ih (fits_append.2 ⟨hrun, hk, hd, trivial⟩) hrest
      (outsideDirectives_append.2 ⟨hrundir, outsideDirectives_leaf.2 ⟨he, outsideDirectives_nil⟩⟩) hrestdir
  | round _ hinner' _ ihi ih =>
    obtain ⟨hb, hd, hdir, hinner, hrest⟩ := hrest
    obtain ⟨ho, hinnerdir, hc, hrestdir⟩ := outsideDirectives_group.1 hrestdir
    have hfits := ihi trivial hinner outsideDirectives_nil hinnerdir
    have hout := hinner'.outsideDirectives outsideDirectives_nil hinnerdir
    exact ih (fits_append.2 ⟨hrun, hb, hd, hdir, hfits, trivial⟩) hrest
      (outsideDirectives_append.2 ⟨hrundir, outsideDirectives_group.2 ⟨ho, hout, hc, outsideDirectives_nil⟩⟩) hrestdir
  | bracket _ _ ih =>
    obtain ⟨hb, hd, hdir, hinner, hrest⟩ := hrest
    obtain ⟨ho, hinnerdir, hc, hrestdir⟩ := outsideDirectives_group.1 hrestdir
    exact ih (fits_append.2 ⟨hrun, hb, hd, hdir, hinner, trivial⟩) hrest
      (outsideDirectives_append.2 ⟨hrundir, outsideDirectives_group.2 ⟨ho, hinnerdir, hc, outsideDirectives_nil⟩⟩) hrestdir

/-- A scan takes nothing out of its region and leaves its order. -/
theorem Grouped.names_sublist (h : Grouped left compared run rest out) :
    (Entry.names (run ++ rest).flatten).Sublist (Entry.names out.flatten) := by
  induction h with
  | done _ =>
    rw [append_nil]
  | doneEnclosed henc =>
    rw [append_nil]
    exact henc.names_sublist
  | border _ _ ih | semicolon _ _ ih =>
    simp only [flatten_append, flatten_leaf, flatten_nil, List.nil_append, Entry.names_append, Entry.names_cons] at ih ⊢
    exact List.Sublist.append_left (ih.cons_cons _) _
  | borderEnclosed _ henc _ ih =>
    simp only [flatten_append, flatten_leaf, flatten_nil, List.nil_append, Entry.names_append, Entry.names_cons] at ih ⊢
    exact henc.names_sublist.append (ih.cons_cons _)
  | compare _ _ ih | word _ _ _ _ ih | bracket _ _ ih =>
    rwa [append_assoc] at ih
  | round _ _ _ ihi ih =>
    refine List.Sublist.trans ?_ ih
    simp only [flatten_append, flatten_group, flatten_nil, List.nil_append, Entry.names_append, Entry.names_cons,
      List.append_assoc, List.cons_append] at ihi ⊢
    refine List.Sublist.append_left ?_ _
    exact (List.Sublist.append ihi (.refl _)).cons_cons _

/-! ## A further scan finds nothing to enclose -/

/-- A scan that stands behind an entry of the kind `left` and has met a comparison or not finds nothing to enclose. -/
def Quiet : Option Kind → Bool → Forest → Prop
  | left, compared, nil => compared = true → left = none
  | left, compared, leaf e rest =>
    if e.kind.endsRun then compared = false ∧ rest.Quiet (some e.kind) false
    else if e.kind = .compare then rest.Quiet left true
    else if e.kind = .semicolon then rest.Quiet (some .semicolon) false
    else rest.Quiet left compared
  | left, compared, group o inner _ rest =>
    (o.kind.opensRound = true → inner.Quiet none false) ∧ rest.Quiet left compared

/-- Nothing in the run ends it, and the round brackets in it are quiet. -/
def IsRun : Forest → Prop
  | nil => True
  | leaf e rest => e.kind.endsRun = false ∧ e.kind ≠ .semicolon ∧ rest.IsRun
  | group o inner _ rest => (o.kind.opensRound = true → inner.Quiet none false) ∧ rest.IsRun

/-- Whether a comparison stands in the run itself, outside its brackets. -/
def hasCompare : Forest → Bool
  | nil => false
  | leaf e rest => e.kind = .compare || rest.hasCompare
  | group _ _ _ rest => rest.hasCompare

/-- Two parts are a run together if both are. -/
theorem isRun_append : (F ++ G).IsRun ↔ F.IsRun ∧ G.IsRun := by
  induction F with
  | nil => simp [IsRun]
  | leaf e rest ih => simp only [leaf_append, IsRun, ih, and_assoc]
  | group o inner c rest _ ih => simp only [group_append, IsRun, ih, and_assoc]

/-- A comparison is in one part or in the other one. -/
theorem hasCompare_append : (F ++ G).hasCompare = (F.hasCompare || G.hasCompare) := by
  induction F with
  | nil => rfl
  | leaf e rest ih => simp only [leaf_append, hasCompare, ih, Bool.or_assoc]
  | group o inner c rest _ ih => simp only [group_append, hasCompare, ih]

/-- A run is passed over, and what is remembered of it is whether it has a comparison. -/
theorem quiet_append (h : F.IsRun) : Quiet left compared (F ++ G) ↔ Quiet left (compared || F.hasCompare) G := by
  induction F generalizing compared with
  | nil => rw [nil_append, hasCompare, Bool.or_false]
  | leaf e rest ih =>
    obtain ⟨hends, hsemi, hrest⟩ := h
    rw [leaf_append, Quiet, if_neg (by simp [hends])]
    by_cases hcmp : e.kind = .compare
    · rw [if_pos hcmp, ih hrest]
      simp [hasCompare, hcmp]
    · rw [if_neg hcmp, if_neg hsemi, ih hrest]
      simp [hasCompare, hcmp]
  | group o inner c rest _ ih =>
    rw [group_append, Quiet, hasCompare, ih h.2, and_iff_right h.1]

/-- Whether there is anything to group does not depend on depths. -/
theorem quiet_change_deepen : (F.change deepen).Quiet left compared ↔ F.Quiet left compared := by
  induction F generalizing left compared with
  | nil => rfl
  | leaf e rest ih =>
    have hk : (e.change deepen).kind = e.kind := rfl
    simp only [change, Quiet, hk, ih]
  | group o inner c rest ihi ih =>
    have hk : (o.change deepen).kind = o.kind := rfl
    simp only [change, Quiet, hk, ihi, ih]

theorem IsLayout.isRun (h : F.IsLayout) : F.IsRun := by
  induction F with
  | nil => trivial
  | leaf e rest ih =>
    have hk := Entry.isLayout_iff.1 (h e List.mem_cons_self)
    have hrest := ih fun x hx => h x (List.mem_cons_of_mem _ hx)
    rcases hk with hk | hk
    · exact ⟨by rw [hk]; rfl, by rw [hk]; decide, hrest⟩
    · exact ⟨by rw [hk]; rfl, by rw [hk]; decide, hrest⟩
  | group o inner c rest _ ih =>
    have hk := Entry.isLayout_iff.1 (h o List.mem_cons_self)
    refine ⟨?_, ih fun x hx => h x (by simp [hx])⟩
    intro hround
    rcases hk with hk | hk
    · rw [hk] at hround
      cases hround
    · rw [hk] at hround
      cases hround

theorem IsLayout.hasCompare (h : F.IsLayout) : F.hasCompare = false := by
  induction F with
  | nil => rfl
  | leaf e rest ih =>
    have hne : e.kind ≠ .compare := by
      intro hk
      have he := Entry.isLayout_iff.1 (h e List.mem_cons_self)
      simp [hk] at he
    rw [Forest.hasCompare, decide_eq_false hne, ih fun x hx => h x (List.mem_cons_of_mem _ hx)]
    rfl
  | group o inner c rest _ ih => exact ih fun x hx => h x (by simp [hx])

/-- In parentheses a run shows no comparison, and by itself it is quiet in them. -/
theorem Enclosed.isRun (h : Enclosed run run') (hrun : run.IsRun) : run'.IsRun ∧ run'.hasCompare = false := by
  obtain @⟨lead, core, trail, o, c, x, y, hlead, htrail, -, -, -, -, -, -⟩ := h
  have hcore : core.IsRun := (isRun_append.1 (isRun_append.1 hrun).1).2
  have hquiet : core.Quiet none false := by
    rw [← append_nil core, quiet_append hcore]
    exact fun _ => rfl
  refine ⟨isRun_append.2 ⟨hlead.isRun, fun _ => quiet_change_deepen.2 hquiet, htrail.isRun⟩, ?_⟩
  rw [hasCompare_append, hlead.hasCompare, Forest.hasCompare, htrail.hasCompare]
  rfl

/-- What a scan leaves is quiet. -/
theorem Grouped.quiet (h : Grouped left compared run rest out) (hrun : run.IsRun)
    (hcompared : run.hasCompare = compared) : out.Quiet left false := by
  induction h with
  | @done left compared run hleft =>
    rw [← append_nil run, quiet_append hrun, hcompared]
    exact hleft
  | @doneEnclosed k run run' henc =>
    obtain ⟨hrun', hnone⟩ := henc.isRun hrun
    rw [← append_nil run', quiet_append hrun', hnone]
    intro h
    cases h
  | border hends _ ih =>
    rw [quiet_append hrun, hcompared, Quiet, if_pos hends]
    exact ⟨rfl, ih trivial rfl⟩
  | borderEnclosed hends henc _ ih =>
    obtain ⟨hrun', hnone⟩ := henc.isRun hrun
    rw [quiet_append hrun', hnone, Quiet, if_pos hends]
    exact ⟨rfl, ih trivial rfl⟩
  | compare hk _ ih =>
    refine ih (isRun_append.2 ⟨hrun, by rw [hk]; rfl, by rw [hk]; decide, trivial⟩) ?_
    simp [hasCompare_append, Forest.hasCompare, hk]
  | semicolon hk _ ih =>
    rw [quiet_append hrun, Quiet, hk]
    exact ih trivial rfl
  | word hends hcmp hsemi _ ih =>
    refine ih (isRun_append.2 ⟨hrun, hends, hsemi, trivial⟩) ?_
    simp [hasCompare_append, Forest.hasCompare, hcompared, hcmp]
  | round _ _ _ ihi ih =>
    refine ih (isRun_append.2 ⟨hrun, fun _ => ihi trivial rfl, trivial⟩) ?_
    simp [hasCompare_append, Forest.hasCompare, hcompared]
  | bracket hround _ ih =>
    refine ih (isRun_append.2 ⟨hrun, fun h => absurd h (by simp [hround]), trivial⟩) ?_
    simp [hasCompare_append, Forest.hasCompare, hcompared]

/-- A scan leaves what is quiet as it is. -/
theorem Grouped.eq_of_quiet (h : Grouped left compared run rest out) (hquiet : rest.Quiet left compared) :
    out = run ++ rest := by
  induction h with
  | done _ => rw [append_nil]
  | doneEnclosed _ => cases hquiet rfl
  | border hends _ ih =>
    rw [Quiet, if_pos hends] at hquiet
    rw [ih hquiet.2, nil_append]
  | borderEnclosed hends _ _ _ =>
    rw [Quiet, if_pos hends] at hquiet
    cases hquiet.1
  | compare hk _ ih =>
    rw [Quiet, hk] at hquiet
    rw [ih hquiet, append_assoc]
    rfl
  | semicolon hk _ ih =>
    rw [Quiet, hk] at hquiet
    rw [ih hquiet, nil_append]
  | word hends hcmp hsemi _ ih =>
    rw [Quiet, if_neg (by simp [hends]), if_neg hcmp, if_neg hsemi] at hquiet
    rw [ih hquiet, append_assoc]
    rfl
  | round hround _ _ ihi ih =>
    rw [Quiet] at hquiet
    rw [ih hquiet.2, ihi (hquiet.1 hround), append_assoc]
    rfl
  | bracket _ _ ih =>
    rw [Quiet] at hquiet
    rw [ih hquiet.2, append_assoc]
    rfl

end Forest

end CodeGroom
