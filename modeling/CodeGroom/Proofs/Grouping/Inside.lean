import CodeGroom.Proofs.Annotate.Depth
import CodeGroom.Proofs.Bracket.Closed
import CodeGroom.Proofs.Grouping.Visits

/-!
# Pairs stand inside their regions

The end of a value is the next semicolon at the depth of its start, which need not be the end of the same statement: brackets
may close and others may open in between. Where they do not, a scan cannot leave its region, and each pair that it inserts
stands in its order between the two ends of the region.
-/

namespace CodeGroom

open Grouping

/-- The pair stands in its order strictly between the ends of the region that it was inserted for, one of those scanned. -/
def Insertion.Inside (scans : List (Strand × Region)) (s : Strand) (p : Insertion) : Prop :=
  ∃ s' i j, (s', regionFromTo i j) ∈ scans ∧ p.region = regionFromTo i j ∧ [i, p.opening, p.closing, j].Sublist s.order

namespace Forest

variable {F G : Forest}

theorem Scanned.outsideDirectives (h : Scanned F G) (hF : F.OutsideDirectives) : G.OutsideDirectives := by
  cases h with
  | blocked hdir => exact absurd hF hdir
  | grouped hout hgrouped => exact hgrouped.outsideDirectives outsideDirectives_nil hout

/-- A scan takes nothing out of its region and leaves its order. -/
theorem Scanned.names_sublist (h : Scanned F G) : (Entry.names F.flatten).Sublist (Entry.names G.flatten) := by
  cases h with
  | blocked _ => exact .refl _
  | grouped _ hgrouped =>
    have hsub := hgrouped.names_sublist
    rwa [nil_append] at hsub

end Forest

namespace InsideAux

open Forest BracketAux

variable {scans made : List (Strand × Region)} {g : Grouping} {p q : List Entry} {a o z : Entry} {F : Forest} {d : Int}

/-- What scans of closed regions keep: a strand with matched brackets and without directives, whose pairs are all inside. -/
structure Contained (scans : List (Strand × Region)) (s : Strand) (ps : List Insertion) : Prop where
  linked : s.WellLinked
  bracketed : s.WellBracketed
  outside : ∀ e ∈ s.entries, e.inDirective = false
  inside : ∀ p ∈ ps, p.Inside scans s

/-- Whatever stands between the ends of a region, so long as it is matched there, the brackets of the whole match. -/
def Replaceable (d : Int) (p : List Entry) (a z : Entry) (q : List Entry) : Prop :=
  ∀ G : Forest, G.Fits d → wellBracketed [] (Entry.lexemes (p ++ a :: (G.flatten ++ z :: q))) = true

/-- A scan of a region with matched brackets keeps all that. -/
theorem Contained.scan (h : Contained scans g.strand g.pairs) (hlists : g.strand.Lists (p ++ a :: (F.flatten ++ z :: q)))
    (hfits : F.Fits d) (hz : z.isLayout = false) (hagain : Replaceable d p a z q)
    (hmem : (g.strand, regionFromTo a.name z.name) ∈ scans) : KeptByScan (fun _ => Contained scans) made g a.name z.name := by
  have houtside := h.outside
  rw [hlists.entries_eq] at houtside
  have hF : F.OutsideDirectives := fun e he => houtside e (by simp [he])
  obtain ⟨out, hscanned, hbecame⟩ := scan_scanned 0 hlists hfits hz (houtside z (by simp))
  have hlists' : (g.scan (regionFromTo a.name z.name)).strand.Lists (p ++ a :: (out.flatten ++ z :: q)) := by
    simpa [regionFromTo] using hbecame.lists
  have hsub : g.strand.order.Sublist (g.scan (regionFromTo a.name z.name)).strand.order := by
    rw [hlists.order_eq, hlists'.order_eq]
    simp only [Entry.names_append, Entry.names_cons]
    exact List.Sublist.append_left ((List.Sublist.append hscanned.names_sublist (.refl _)).cons_cons _) _
  refine ⟨⟨hlists'.linked.wellLinked, ?_, ?_, ?_⟩, ?_⟩
  · exact hlists'.wellBracketed_iff_lexemes.2 (hagain out (hscanned.fits hfits))
  · intro e he
    rw [hlists'.entries_eq] at he
    simp only [List.mem_append, List.mem_cons] at he
    rcases he with he | rfl | he | rfl | he
    · exact houtside e (by simp [he])
    · exact houtside e (by simp)
    · exact hscanned.outsideDirectives hF e he
    · exact houtside e (by simp)
    · exact houtside e (by simp [he])
  · intro i hi
    obtain ⟨new, hnew, hinside⟩ := hbecame.pairs
    have hpairs : (g.scan (regionFromTo a.name z.name)).pairs = new ++ g.pairs := hnew
    rw [hpairs] at hi
    rcases List.mem_append.1 hi with hi | hi
    · obtain ⟨hregion, hpair⟩ := hinside i hi
      refine ⟨g.strand, a.name, z.name, hmem, hregion, ?_⟩
      rw [hlists'.order_eq]
      simp only [Entry.names_append, Entry.names_cons]
      refine (List.Sublist.cons_cons _ ?_).trans (List.sublist_append_right _ _)
      exact List.Sublist.append hpair (List.Sublist.cons_cons _ (List.nil_sublist _))
    · obtain ⟨s', j, k, hscan, hregion, hold⟩ := h.inside i hi
      exact ⟨s', j, k, hscan, hregion, hold.trans hsub⟩
  · rw [hlists'.order_eq]
    exact Entry.mem_names (by simp)

/-- The region of a condition in matched brackets. -/
theorem exists_condition {b : Bracket} {es : List Entry} (h : wellBracketed [] (Entry.lexemes (p ++ o :: es)) = true)
    (ho : o.kind = .opening b) : ∃ (F : Forest) (w : Entry) (q : List Entry), es = F.flatten ++ w :: q ∧ IsGroup o F w ∧
      w.kind = .closing b ∧ o.inDirective = false ∧ w.inDirective = false ∧ Replaceable (o.depth + 1) p o w q := by
  rw [Entry.lexemes_append] at h
  obtain ⟨opened, hes, hread⟩ := exists_opened_of_append h
  rw [Entry.lexemes_cons] at hes
  obtain ⟨hd, hdir, hes⟩ := (wellBracketed_opening ho).1 hes
  obtain ⟨F, rest, rfl, hF, hrest⟩ := exists_forest_append (Nat.le_refl _) hes
  rcases hrest with ⟨hnil, -⟩ | ⟨b', outer, w, q, hcons, rfl, hw, hwd, hwdir, hq⟩
  · cases hnil
  · obtain ⟨rfl, rfl⟩ := List.cons.inj hcons
    rw [List.length_cons, Int.natCast_succ, ← hd] at hF
    refine ⟨F, w, q, rfl, ⟨⟨b, ho, hw⟩, hwd.trans hd.symm, hF⟩, hw, hdir, hwdir, ?_⟩
    intro G hG
    have hG' : G.Fits ((b :: opened).length : Nat) := by
      rw [List.length_cons, Int.natCast_succ, ← hd]
      exact hG
    rw [Entry.lexemes_append, Entry.lexemes_cons, Entry.lexemes_append]
    refine hread _ ((wellBracketed_opening ho).2 ⟨hd, hdir, ?_⟩)
    exact (wellBracketed_append hG' _).2 ((wellBracketed_closing hw).2 ⟨rfl, hwd, hwdir, hq⟩)

/-- What stands between two lexemes of one depth, if matched, may be anything that is. -/
theorem replaceable_of_other (h : wellBracketed [] (Entry.lexemes (p ++ a :: (F.flatten ++ z :: q))) = true)
    (ha : a.kind.isBracket = false) (hF : F.Fits a.depth) : Replaceable a.depth p a z q := by
  rw [Entry.lexemes_append] at h
  obtain ⟨opened, hes, hread⟩ := exists_opened_of_append h
  rw [Entry.lexemes_cons, Entry.lexemes_append] at hes
  obtain ⟨hd, hes⟩ := (wellBracketed_other ha).1 hes
  intro G hG
  rw [hd] at hF hG
  rw [Entry.lexemes_append, Entry.lexemes_cons, Entry.lexemes_append]
  refine hread _ ((wellBracketed_other ha).2 ⟨hd, ?_⟩)
  exact (wellBracketed_append hG _).2 ((wellBracketed_append hF _).1 hes)

/-- A scan of a condition keeps all that. -/
theorem Contained.condition {i j : Nat} (h : Contained scans g.strand g.pairs) (hi : i ∈ g.strand.order)
    (hend : conditionEnd? g i = some j) (hmem : (g.strand, regionFromTo i j) ∈ scans) :
    KeptByScan (fun _ => Contained scans) made g i j := by
  obtain ⟨p, o, es, hlists, rfl⟩ := h.linked.exists_split hi
  have hvisit := conditionVisitor.visit_of_stop hend
  have hopens : o.opensScannedCondition = true := by
    unfold conditionEnd? at hend
    dsimp only at hend
    split_ifs at hend with ho
    rw [hlists.kind_eq (by simp), hlists.owner_eq (by simp)] at ho
    exact ho
  have ho : o.kind = .opening .condition := by
    simp only [Entry.opensScannedCondition, Bool.and_eq_true, decide_eq_true_eq] at hopens
    exact hopens.1
  obtain ⟨F, w, q, rfl, hgroup, hw, hodir, hwdir, hagain⟩ :=
    exists_condition (hlists.wellBracketed_iff_lexemes.1 h.bracketed) ho
  -- The visit goes on at the closing parenthesis, so the region ends there.
  have hvisit' := visitCondition_condition hlists hgroup.fits hopens hw rfl hgroup.depth hodir hwdir
  obtain rfl : w.name = j := congrArg Prod.snd (hvisit'.symm.trans hvisit)
  exact h.scan hlists hgroup.fits (isLayout_of_closing hw) hagain hmem

/-- A scan of a value in a closed region keeps all that. -/
theorem Contained.value {kind : Kind} {i j : Nat} (hkind : kind = .assign ∨ kind = .returnWord)
    (h : Contained scans g.strand g.pairs) (hi : i ∈ g.strand.order) (hend : valueEnd? kind g i = some j)
    (hclosed : g.strand.Closed (regionFromTo i j)) (hmem : (g.strand, regionFromTo i j) ∈ scans) :
    KeptByScan (fun _ => Contained scans) made g i j := by
  obtain ⟨p, a, es, hlists, rfl⟩ := h.linked.exists_split hi
  have houtside := h.outside
  rw [hlists.entries_eq] at houtside
  unfold valueEnd? at hend
  split_ifs at hend with hk hwhile
  rw [hlists.kind_eq (by simp)] at hk
  have ha : a.kind.isBracket = false := by
    rcases hkind with rfl | rfl <;> rw [hk] <;> rfl
  rw [endOf?, hlists.depth_eq (by simp), hlists.nextOfKind_eq (houtside a (by simp))] at hend
  obtain ⟨z, hfind, rfl⟩ := Option.map_eq_some_iff.1 hend
  obtain ⟨hz, m, q, rfl, -⟩ := List.find?_eq_some_iff_append.1 hfind
  simp only [Bool.and_eq_true, decide_eq_true_eq] at hz
  obtain ⟨-, hzkind, hzdepth⟩ := hz
  have hzbracket : z.kind.isBracket = false := by
    rw [hzkind]
    rfl
  have hzcode : z.isLayout = false := by
    cases hlayout : z.isLayout with
    | false => rfl
    | true =>
      rcases Entry.isLayout_iff.1 hlayout with hz | hz <;> rw [hz] at hzkind <;> cases hzkind
  obtain ⟨F, rfl, hF⟩ := hclosed.exists_forest hlists h.bracketed ha hzbracket hzdepth
  have hagain := replaceable_of_other (hlists.wellBracketed_iff_lexemes.1 h.bracketed) ha hF
  exact h.scan hlists hF hzcode hagain hmem

end InsideAux

open InsideAux

/-- In a source without directives whose brackets match, if the values that a run scans are closed regions, every pair that the
run inserts stands in its order between the ends of the region that it was inserted for. -/
theorem Source.pairs_inside (src : Source) {ts : List Token} (st : Style) (hdir : ∀ t ∈ ts, t.cls.within .directive = false)
    (hmatch : bracketsMatch [] ((src.annotate ts).lexemes.reverse.map (·.kind)) = true)
    (hclosed : ∀ sr ∈ (start (src.read ts)).valueScans st, sr.1.Closed sr.2) :
    ∀ p ∈ ((start (src.read ts)).run st).pairs,
      p.Inside ((start (src.read ts)).scans st) ((start (src.read ts)).run st).strand := by
  obtain ⟨houtside, hbracketed⟩ := src.wellBracketed_annotate hdir hmatch
  have hlexemes : (src.read ts).lexemes = (src.annotate ts).lexemes.reverse := Strand.map_lexeme_order_ofLexemes _ _
  have hstart : Contained ((start (src.read ts)).scans st) (start (src.read ts)).strand (start (src.read ts)).pairs := by
    refine ⟨Strand.wellLinked_ofLexemes _ _, ?_, ?_, fun p hp => by cases hp⟩
    · show wellBracketed [] (src.read ts).lexemes = true
      rw [hlexemes]
      exact hbracketed
    · intro e he
      obtain ⟨i, hi, rfl⟩ := List.mem_map.1 he
      refine houtside ((src.read ts).lexeme (some i)) (List.mem_reverse.1 ?_)
      rw [← hlexemes]
      exact List.mem_map_of_mem hi
  refine (run_keeps (P := fun _ => Contained _) (fun h => h.linked) ?_ ?_ hstart).inside
  · intro _ g i j h hi hend hmem
    exact h.condition hi hend (List.mem_append_left _ hmem)
  · intro _ kind g i j hkind h hi hend hmem
    exact h.value hkind hi hend (hclosed _ hmem) (List.mem_append_right _ hmem)

namespace InsideAux

/-- The tokens of the assignment `a=b==1||c;` at a place. -/
def assignmentTokens (start : Nat) : List Token :=
  [⟨start, .name, Text.ofString "a"⟩, ⟨start + 1, .operator, Text.ofString "="⟩, ⟨start + 2, .name, Text.ofString "b"⟩,
    ⟨start + 3, .operator, Text.ofString "=="⟩, ⟨start + 5, .numberInteger, Text.ofString "1"⟩,
    ⟨start + 6, .operator, Text.ofString "||"⟩, ⟨start + 8, .name, Text.ofString "c"⟩, ⟨start + 9, .punctuation, Text.ofString ";"⟩]

/-- The tokens of that assignment behind a loop with a step that is one too, `for(;;i=0)` and a block with an empty statement. -/
def loopTokens : List Token :=
  [⟨0, .keyword, Text.ofString "for"⟩, ⟨3, .punctuation, Text.ofString "("⟩, ⟨4, .punctuation, Text.ofString ";"⟩,
    ⟨5, .punctuation, Text.ofString ";"⟩, ⟨6, .name, Text.ofString "i"⟩, ⟨7, .operator, Text.ofString "="⟩,
    ⟨8, .numberInteger, Text.ofString "0"⟩, ⟨9, .punctuation, Text.ofString ")"⟩, ⟨10, .punctuation, Text.ofString "\x7b"⟩,
    ⟨11, .punctuation, Text.ofString ";"⟩, ⟨12, .punctuation, Text.ofString "\x7d"⟩] ++ assignmentTokens 13

/-- The source that some tokens are of. -/
def sourceOf (ts : List Token) : Source := { text := ts.flatMap (·.text), tabSize := 8, language := "c" }

/-- A run over that source for the values of assignments. -/
def runOf (ts : List Token) : Grouping := (start ((sourceOf ts).read ts)).run { groupAssignments := true }

end InsideAux

theorem Source.pairs_inside_assignment :
    (runOf (assignmentTokens 0)).pairs = [⟨8, 9, regionFromTo 1 7⟩] ∧
      ∀ p ∈ (runOf (assignmentTokens 0)).pairs,
        p.Inside ((start ((sourceOf (assignmentTokens 0)).read (assignmentTokens 0))).scans { groupAssignments := true })
          (runOf (assignmentTokens 0)).strand :=
  ⟨by decide +kernel, (sourceOf (assignmentTokens 0)).pairs_inside { groupAssignments := true } (by decide) (by decide +kernel)
    (by decide +kernel)⟩

/-- Regions must be closed: the step of a loop is taken to end at the semicolon in the block behind it, and a scan of it comes out
of the block on the other side. -/
theorem Source.not_pairs_inside : ¬∀ (src : Source) (ts : List Token) (st : Style),
    (∀ t ∈ ts, t.cls.within .directive = false) →
      bracketsMatch [] ((src.annotate ts).lexemes.reverse.map (·.kind)) = true →
        ∀ p ∈ ((start (src.read ts)).run st).pairs,
          p.Inside ((start (src.read ts)).scans st) ((start (src.read ts)).run st).strand := by
  intro h
  have hpairs : (runOf loopTokens).pairs = [⟨19, 20, regionFromTo 5 9⟩] := by decide +kernel
  have horder : ¬[5, 19, 20, 9].Sublist (runOf loopTokens).strand.order := by decide +kernel
  have hmem : ⟨19, 20, regionFromTo 5 9⟩ ∈ (runOf loopTokens).pairs := by simp [hpairs]
  obtain ⟨s', i, j, -, hregion, hsub⟩ :=
    h (sourceOf loopTokens) loopTokens { groupAssignments := true } (by decide) (by decide +kernel) _ hmem
  obtain ⟨rfl, rfl⟩ : 5 = i ∧ 9 = j := by simpa [regionFromTo] using hregion
  exact horder hsub

end CodeGroom
