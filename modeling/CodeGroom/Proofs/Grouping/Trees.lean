import CodeGroom.Annotate.Reading
import CodeGroom.Proofs.Grouping.Cuts
import CodeGroom.Proofs.Grouping.Visits

/-!
# Grouping and expression trees

A run leaves the trees of all statements and conditions as they were exactly if none of its scans cuts an assignment off. What one
scan has sunk, no later one lifts again, so a cut shows at the end of the run.
-/

namespace CodeGroom

namespace Strand

/-- What stands between the ends of a region. -/
def contents (s : Strand) (r : Region) : List Entry :=
  (s.between r.first r.last).map fun i => ⟨i, (s.lexeme (some i)).bare⟩

/-- The lexemes between the ends of a region make up a forest: brackets match among them, and nothing is returned. -/
def Holds (s : Strand) (r : Region) (F : Forest) : Prop :=
  s.contents r = F.flatten ∧ (∃ d, F.Fits d) ∧ F.returnsNothing = true

/-- A scan of the region cuts no assignment off. It leaves a region alone in which a directive lies. -/
def CutsNothing (s : Strand) (r : Region) : Prop :=
  ∃ F : Forest, s.Holds r F ∧ (F.OutsideDirectives → F.cutsNothing none false false = true)

/-- How far the assignments in all statements and conditions are sunk. -/
def sunk (s : Strand) : Nat := (s.trees.map Tree.sunk).sum

variable {s : Strand} {es p m q : List Entry} {a z : Entry}

theorem Lists.contents_eq (h : s.Lists (p ++ a :: (m ++ z :: q))) :
    s.contents { first := some a.name, last := some z.name } = m := by
  rw [contents, h.between_eq, Entry.names, List.map_map]
  conv_rhs => rw [← List.map_id m]
  refine List.map_congr_left ?_
  intro e he
  simp only [Function.comp, h.bare_eq e (by simp [he]), id]

/-- Columns play no part in trees. -/
theorem Lists.trees_eq (h : s.Lists es) : s.trees = (Reading.ofLexemes (Entry.lexemes es) {}).trees := by
  have hbare : ∀ (xs : List Lexeme) (r : Reading), Reading.ofLexemes (xs.map Lexeme.bare) r = Reading.ofLexemes xs r := by
    intro xs r
    rw [Reading.ofLexemes, List.foldr_map]
    rfl
  rw [trees, ← hbare, ← BracketAux.lexemes_entries, h.entries_eq]

end Strand

namespace TreesAux

open Forest CodeGroom.Frame Grouping

variable {g : Grouping} {p q es : List Entry} {a z : Entry} {F G : Forest} {d : Int}

/-- A semicolon or a closing bracket leaves nothing before it that could be joined to it. -/
theorem fresh_top (hdir : z.inDirective = false) (hz : z.kind = .semicolon ∨ ∃ b, z.kind = .closing b) (r : Reading) :
    (r.read z.lexeme).top.Fresh := by
  have hdir' : z.lexeme.inDirective = false := hdir
  rcases hz with hz | ⟨b, hz⟩
  · have hkind : z.lexeme.kind = .semicolon := hz
    simp only [Reading.read, Frame.read, hdir', hkind]
    exact ⟨rfl, rfl, rfl, rfl⟩
  · have hkind : z.lexeme.kind = .closing b := hz
    simp only [Reading.read, hdir', hkind]
    exact ⟨rfl, rfl, rfl, rfl⟩

/-- The start of a region takes the value of what stands in it. -/
theorem read_first {f f' : Frame} {outer : List Frame} (hsame : SameValue f f') (hdir : a.inDirective = false)
    (ha : a.kind.takesValue = true ∨ ∃ b, a.kind = .opening b) :
    Reading.read a.lexeme ⟨f, outer⟩ = Reading.read a.lexeme ⟨f', outer⟩ := by
  have hdir' : a.lexeme.inDirective = false := hdir
  rcases ha with ha | ⟨b, ha⟩
  · have hread := hsame.read_eq hdir' ha
    unfold Reading.read
    rw [hdir']
    have hother : ∀ b, a.lexeme.kind ≠ .opening b ∧ a.lexeme.kind ≠ .closing b := by
      intro b
      constructor <;> intro hb <;> simp [Entry.kind, hb, Kind.takesValue] at ha
    cases hkind : a.lexeme.kind with
    | opening b => exact absurd hkind (hother b).1
    | closing b => exact absurd hkind (hother b).2
    | _ => simp [hread]
  · have hkind : a.lexeme.kind = .opening b := ha
    simp only [Reading.read, hdir', hkind, Frame.bracketed, hsame.tree_eq]
    rfl

/-- Reading what lies around a region. -/
theorem ofLexemes_around (hF : F.Fits d) (r : Reading) : Reading.ofLexemes (Entry.lexemes (p ++ a :: (F.flatten ++ z :: q))) r =
    Reading.ofLexemes (Entry.lexemes p) (Reading.read a.lexeme
      ⟨F.reads (Reading.read z.lexeme (Reading.ofLexemes (Entry.lexemes q) r)).top,
        (Reading.read z.lexeme (Reading.ofLexemes (Entry.lexemes q) r)).outer⟩) := by
  have hinside := ofLexemes_flatten hF (Reading.read z.lexeme (Reading.ofLexemes (Entry.lexemes q) r))
  unfold Reading.ofLexemes at hinside ⊢
  rw [Entry.lexemes_append, Entry.lexemes_cons, Entry.lexemes_append, Entry.lexemes_cons, List.foldr_append, List.foldr_cons,
    List.foldr_append, List.foldr_cons, hinside]

/-- In a directive there is nothing to scan: either the region is empty, or a directive lies in it. -/
theorem scan_of_inDirective {j : Nat} {kind : Kind} (h : g.strand.Lists (p ++ a :: es)) (ha : a.inDirective = true)
    (hkind : kind ≠ .comment ∧ kind ≠ .newline) (hend : g.endOf? a.name kind = some j) :
    (g.scan (regionFromTo a.name j)).strand = g.strand ∧ j ∈ g.strand.order ∧
      ∀ F : Forest, g.strand.contents (regionFromTo a.name j) = F.flatten → F.OutsideDirectives → F = nil := by
  have hdir : g.strand.inDirective a.name = true := by rw [h.inDirective_eq (by simp), ha]
  rw [endOf?, Strand.nextOfKind, Strand.ahead, hdir, Strand.restrict, h.after_eq] at hend
  have hj := List.find?_some hend
  dsimp only at hj
  have hmem := List.mem_of_find?_eq_some hend
  have horder : j ∈ g.strand.order := by
    rw [h.order_eq, Entry.names_append, Entry.names_cons]
    exact List.mem_append_right _ (List.mem_cons_of_mem _ ((List.takeWhile_sublist _).subset hmem))
  have hempty : ∀ F : Forest, [] = F.flatten → F = nil := fun F hF => by cases F <;> simp at hF ⊢
  rw [and_left_comm]
  refine ⟨horder, ?_⟩
  cases es with
  | nil => simp at hmem
  | cons x es =>
    have hx : g.strand.inDirective x.name = true := by
      cases hx : g.strand.inDirective x.name with
      | true => rfl
      | false => simp [hx] at hmem
    by_cases hxj : x.name = j
    · subst hxj
      -- The region is empty.
      have hlists : g.strand.Lists (p ++ a :: ([] ++ x :: es)) := h
      have hnone : g.strand.directiveBetween (some a.name) (some x.name) = none := by
        rw [Strand.directiveBetween, hlists.between_eq]
        rfl
      have hcode : x.isLayout = false := by
        cases hlayout : x.isLayout with
        | false => rfl
        | true =>
          rw [h.kind_eq (by simp)] at hj
          simp only [Bool.and_eq_true, decide_eq_true_eq] at hj
          rcases Entry.isLayout_iff.1 hlayout with hk | hk
          · exact absurd (hj.1.symm.trans hk) hkind.1
          · exact absurd (hj.1.symm.trans hk) hkind.2
      have hnext : g.strand.nextCode (some a.name) = some x.name := by
        rw [h.nextCode_eq, List.find?_cons]
        simp [hcode]
      obtain ⟨e, hscan⟩ := exists_scan_eq (r := regionFromTo a.name x.name) hnone
      obtain ⟨more, hfull, -⟩ := (Countdown.outlasts_full ⟨0, 0, 0⟩).exists_step
      refine ⟨?_, fun F hF _ => hempty F ?_⟩
      · rw [hscan, hfull, scanFrom_done (look_stop hnext)]
        simp [finishRegion, note]
      · rw [← hF, regionFromTo, hlists.contents_eq]
    · obtain ⟨rest, hbetween⟩ : ∃ rest, g.strand.between (some a.name) (some j) = x.name :: rest := by
        rw [Strand.between, Strand.ahead, Strand.restrict, h.after_eq, Entry.names_cons, List.takeWhile_cons,
          if_pos (by simpa using hxj)]
        exact ⟨_, rfl⟩
      have hsome : g.strand.directiveBetween (some a.name) (some j) = some x.name := by
        rw [Strand.directiveBetween, hbetween, List.find?_cons, hx]
      refine ⟨(scan_blocked (r := regionFromTo a.name j) hsome).1, ?_⟩
      intro F hF hout
      have hmem : (⟨x.name, (g.strand.lexeme (some x.name)).bare⟩ : Entry) ∈ F.flatten := by
        rw [← hF, Strand.contents, regionFromTo, hbetween]
        exact List.mem_cons_self
      exact absurd (hx.symm.trans (hout _ hmem)) (by simp)

/-- A scan of a region whose brackets match: it cuts nothing off and leaves the trees as they are, or it cuts something off and
sinks that. -/
theorem scan_trees {i j : Nat} {kind : Kind} (hlinked : g.strand.WellLinked)
    (hi : i ∈ g.strand.order) (hend : g.endOf? i kind = some j)
    (hkind : kind = .semicolon ∨ ∃ b, kind = .closing b)
    (hfirst : (g.strand.lexeme (some i)).kind.takesValue = true ∨ ∃ b, (g.strand.lexeme (some i)).kind = .opening b)
    (hholds : g.strand.Holds (regionFromTo i j) F) :
    (g.scan (regionFromTo i j)).strand.WellLinked ∧ j ∈ (g.scan (regionFromTo i j)).strand.order ∧
      ((F.OutsideDirectives → F.cutsNothing none false false = true) →
        (g.scan (regionFromTo i j)).strand.trees = g.strand.trees) ∧
      (F.OutsideDirectives → F.cutsNothing none false false = false →
        g.strand.sunk < (g.scan (regionFromTo i j)).strand.sunk) := by
  obtain ⟨p, a, es, hlists, rfl⟩ := hlinked.exists_split hi
  have hcode : kind ≠ .comment ∧ kind ≠ .newline := by
    rcases hkind with rfl | ⟨b, rfl⟩ <;> exact ⟨by simp, by simp⟩
  rw [hlists.kind_eq (by simp)] at hfirst
  obtain ⟨hcontents, ⟨d, hF⟩, hreturns⟩ := hholds
  cases hadir : a.inDirective with
  | true =>
    obtain ⟨hsame, hj, hnil⟩ := scan_of_inDirective hlists hadir hcode hend
    rw [hsame]
    refine ⟨hlinked, hj, fun _ => rfl, ?_⟩
    intro hout hcuts
    rw [hnil F hcontents hout] at hcuts
    cases hcuts
  | false =>
    rw [endOf?, hlists.depth_eq (by simp), hlists.nextOfKind_eq hadir] at hend
    obtain ⟨z, hfind, rfl⟩ := Option.map_eq_some_iff.1 hend
    obtain ⟨hz, m, q, rfl, -⟩ := List.find?_eq_some_iff_append.1 hfind
    simp only [Bool.and_eq_true, Bool.not_eq_true', decide_eq_true_eq] at hz
    obtain ⟨hzdir, hzkind, -⟩ := hz
    rw [← hzkind] at hkind hcode
    have hzcode : z.isLayout = false := by
      cases hlayout : z.isLayout with
      | false => rfl
      | true =>
        rcases Entry.isLayout_iff.1 hlayout with hk | hk
        · exact absurd hk hcode.1
        · exact absurd hk hcode.2
    have hm : m = F.flatten := hlists.contents_eq.symm.trans hcontents
    subst hm
    obtain ⟨out, hscanned, hbecame⟩ := scan_scanned 0 hlists hF hzcode hzdir
    have hlists' : (g.scan (regionFromTo a.name z.name)).strand.Lists (p ++ a :: (out.flatten ++ z :: q)) := by
      simpa [regionFromTo] using hbecame.lists
    refine ⟨hlists'.linked.wellLinked, ?_, ?_, ?_⟩
    · rw [hlists'.order_eq]
      exact Entry.mem_names (by simp)
    · intro hcuts
      rw [hlists.trees_eq, hlists'.trees_eq, ofLexemes_around hF, ofLexemes_around (hscanned.fits hF)]
      cases hscanned with
      | blocked _ => rfl
      | grouped hout hgrouped =>
        rw [read_first (hgrouped.sameValue (.start hF hout hreturns) (hcuts hout) (fresh_top hzdir hkind _)) hadir hfirst]
    · intro hout hcuts
      cases hscanned with
      | blocked hdir => exact absurd hout hdir
      | grouped _ hgrouped =>
        have hgains := ((Reading.gains_top (hgrouped.sinks (.start hF hout hreturns) hcuts
          (Reading.read z.lexeme (Reading.ofLexemes (Entry.lexemes q) {})).top)
          (Reading.read z.lexeme (Reading.ofLexemes (Entry.lexemes q) {})).outer).read a.lexeme).ofLexemes (Entry.lexemes p)
        rw [← ofLexemes_around hF, ← ofLexemes_around (hgrouped.fits trivial hF outsideDirectives_nil hout)] at hgains
        rw [Strand.sunk, Strand.sunk, hlists.trees_eq, hlists'.trees_eq]
        exact hgains.sunk

/-- What a run has kept after some scans: the trees of the strand that it started with if they have cut nothing off, and if they
have, something is sunk further than it was there. -/
structure Kept (s₀ : Strand) (made : List (Strand × Region)) (s : Strand) : Prop where
  linked : s.WellLinked
  sunk : s₀.sunk ≤ s.sunk
  trees : (∀ sr ∈ made, sr.1.CutsNothing sr.2) → s.trees = s₀.trees
  cut : (∃ sr ∈ made, ¬sr.1.CutsNothing sr.2) → s₀.sunk < s.sunk

variable {s₀ : Strand} {made : List (Strand × Region)}

theorem Kept.scan {i j : Nat} {kind : Kind} (h : Kept s₀ made g.strand) (hi : i ∈ g.strand.order)
    (hend : g.endOf? i kind = some j) (hkind : kind = .semicolon ∨ ∃ b, kind = .closing b)
    (hfirst : (g.strand.lexeme (some i)).kind.takesValue = true ∨ ∃ b, (g.strand.lexeme (some i)).kind = .opening b)
    (hholds : ∃ F, g.strand.Holds (regionFromTo i j) F) : KeptByScan (fun made s _ => Kept s₀ made s) made g i j := by
  by_cases hcuts : g.strand.CutsNothing (regionFromTo i j)
  · obtain ⟨F, hholds, hF⟩ := hcuts
    obtain ⟨hlinked, hj, hsame, -⟩ := scan_trees h.linked hi hend hkind hfirst hholds
    have htrees := hsame hF
    have hsunk : (g.scan (regionFromTo i j)).strand.sunk = g.strand.sunk := by rw [Strand.sunk, htrees, Strand.sunk]
    refine ⟨⟨hlinked, hsunk ▸ h.sunk, ?_, ?_⟩, hj⟩
    · intro hall
      exact htrees.trans (h.trees fun sr hsr => hall sr (List.mem_append_left _ hsr))
    · rintro ⟨sr, hsr, hcut⟩
      rw [hsunk]
      rcases List.mem_append.1 hsr with hsr | hsr
      · exact h.cut ⟨sr, hsr, hcut⟩
      · rw [List.mem_singleton.1 hsr] at hcut
        exact absurd ⟨F, hholds, hF⟩ hcut
  · obtain ⟨F, hholds⟩ := hholds
    obtain ⟨hlinked, hj, -, hsink⟩ := scan_trees h.linked hi hend hkind hfirst hholds
    have hout : F.OutsideDirectives ∧ F.cutsNothing none false false = false := by
      by_contra hno
      exact hcuts ⟨F, hholds, fun hout => by
        rw [← Bool.not_eq_false]
        exact fun hfalse => hno ⟨hout, hfalse⟩⟩
    have hsunk := hsink hout.1 hout.2
    have hbefore := h.sunk
    refine ⟨⟨hlinked, by omega, ?_, fun _ => by omega⟩, hj⟩
    intro hall
    exact absurd (hall _ (List.mem_append_right _ (List.mem_singleton.2 rfl))) hcuts

end TreesAux

open TreesAux in
/-- Where brackets match in the regions that a run scans and nothing is returned in them, the run leaves the trees of all
statements and conditions as they were exactly if no scan cuts an assignment off. -/
theorem Grouping.trees_run_iff (st : Style) (g : Grouping) (hlinked : g.strand.WellLinked)
    (hholds : ∀ sr ∈ g.scans st, ∃ F, sr.1.Holds sr.2 F) :
    (g.run st).strand.trees = g.strand.trees ↔ ∀ sr ∈ g.scans st, sr.1.CutsNothing sr.2 := by
  have hstart : Kept g.strand [] g.strand :=
    ⟨hlinked, le_rfl, fun _ => rfl, fun hex => by
      obtain ⟨sr, hsr, -⟩ := hex
      cases hsr⟩
  have hkept : Kept g.strand (g.scans st) (g.run st).strand := by
    refine run_keeps (P := fun made s _ => Kept g.strand made s) (fun h => h.linked) ?_ ?_ hstart
    · intro made g' i j h hi hend hmem
      unfold conditionEnd? at hend
      dsimp only at hend
      split_ifs at hend with hopens
      rw [Bool.and_eq_true, decide_eq_true_eq] at hopens
      exact h.scan hi hend (.inr ⟨_, rfl⟩) (.inr ⟨_, hopens.1⟩) (hholds _ (List.mem_append_left _ hmem))
    · intro made kind g' i j hkind h hi hend hmem
      unfold valueEnd? at hend
      split_ifs at hend with hk hwhile
      refine h.scan hi hend (.inl rfl) (.inl ?_) (hholds _ (List.mem_append_right _ hmem))
      rw [hk]
      rcases hkind with rfl | rfl <;> rfl
  constructor
  · intro htrees sr hsr
    by_contra hcut
    have hsunk := hkept.cut ⟨sr, hsr, hcut⟩
    rw [Strand.sunk, Strand.sunk, htrees] at hsunk
    exact lt_irrefl _ hsunk
  · intro hcuts
    exact hkept.trees hcuts

namespace TreesAux

open Forest Grouping

/-- Some entries that are no brackets, in front of a forest. -/
def leaves (es : List Entry) (F : Forest) : Forest := es.foldr leaf F

theorem fits_leaves {es : List Entry} {F : Forest} {d : Int} (h : ∀ e ∈ es, e.kind.isBracket = false ∧ e.depth = d)
    (hF : F.Fits d) : (leaves es F).Fits d := by
  induction es with
  | nil => exact hF
  | cons e es ih =>
    obtain ⟨hk, hd⟩ := h e List.mem_cons_self
    exact ⟨hk, hd, ih fun x hx => h x (List.mem_cons_of_mem _ hx)⟩

/-- A lexeme of a grouping as an entry. -/
def entryOf (g : Grouping) (i : Nat) : Entry := ⟨i, (g.strand.lexeme (some i)).bare⟩

/-- A lexeme at a depth. -/
def lexemeAt (depth : Int) (kind : Kind) (text : String) : Lexeme := { kind, text := Text.ofString text, depth }

/-- The lexemes of a condition with an assignment that nothing is joined to, `if(a==b&&(x=c==d,e))`. -/
def joinedLexemes : List Lexeme :=
  [lexemeAt 0 .ifWord "if", { lexemeAt 0 (.opening .condition) "(" with owner := .ifWord }, lexemeAt 1 .word "a",
    lexemeAt 1 .compare "==", lexemeAt 1 .word "b", lexemeAt 1 .logical "&&", lexemeAt 1 (.opening .paren) "(",
    lexemeAt 2 .word "x", lexemeAt 2 .assign "=", lexemeAt 2 .word "c", lexemeAt 2 .compare "==", lexemeAt 2 .word "d",
    lexemeAt 2 .comma ",", lexemeAt 2 .word "e", lexemeAt 1 (.closing .paren) ")", lexemeAt 0 (.closing .condition) ")"]

/-- That condition. -/
def joinedCondition : Grouping := start (.ofLexemes "c" joinedLexemes)

/-- What the condition holds. -/
def joinedForest : Forest :=
  leaves ([2, 3, 4, 5].map (entryOf joinedCondition))
    (group (entryOf joinedCondition 6) (leaves ([7, 8, 9, 10, 11, 12, 13].map (entryOf joinedCondition)) nil)
      (entryOf joinedCondition 14) nil)

/-- The tokens of a condition with an assignment that takes in more than its run, `if(x=a==b&&c)d;`. -/
def cutTokens : List Token :=
  [⟨0, .keyword, Text.ofString "if"⟩, ⟨2, .punctuation, Text.ofString "("⟩, ⟨3, .name, Text.ofString "x"⟩,
    ⟨4, .operator, Text.ofString "="⟩, ⟨5, .name, Text.ofString "a"⟩, ⟨6, .operator, Text.ofString "=="⟩,
    ⟨8, .name, Text.ofString "b"⟩, ⟨9, .operator, Text.ofString "&&"⟩, ⟨11, .name, Text.ofString "c"⟩,
    ⟨12, .punctuation, Text.ofString ")"⟩, ⟨13, .name, Text.ofString "d"⟩, ⟨14, .punctuation, Text.ofString ";"⟩]

/-- The condition that those tokens are of. -/
def cutCondition : Grouping :=
  start (({ text := cutTokens.flatMap (·.text), tabSize := 8, language := "c" } : Source).read cutTokens)

end TreesAux

open TreesAux in
theorem Grouping.trees_run_joinedCondition :
    (joinedCondition.run { groupConditions := true }).pairs = [⟨18, 19, regionFromTo 1 15⟩, ⟨16, 17, regionFromTo 1 15⟩] ∧
      (joinedCondition.run { groupConditions := true }).strand.trees = joinedCondition.strand.trees := by
  have hscans : joinedCondition.scans { groupConditions := true } = [(joinedCondition.strand, regionFromTo 1 15)] := by
    decide +kernel
  have hfits : joinedForest.Fits 1 := by
    refine fits_leaves (by decide +kernel) ⟨⟨.paren, by decide +kernel, by decide +kernel⟩, by decide +kernel,
      by decide +kernel, fits_leaves (by decide +kernel) trivial, trivial⟩
  have hholds : joinedCondition.strand.Holds (regionFromTo 1 15) joinedForest :=
    ⟨by decide +kernel, ⟨1, hfits⟩, by decide +kernel⟩
  refine ⟨by decide +kernel, (trees_run_iff _ _ (Strand.wellLinked_ofLexemes _ _) ?_).2 ?_⟩
  · intro sr hsr
    rw [hscans, List.mem_singleton] at hsr
    rw [hsr]
    exact ⟨joinedForest, hholds⟩
  · intro sr hsr
    rw [hscans, List.mem_singleton] at hsr
    rw [hsr]
    exact ⟨joinedForest, hholds, fun _ => by decide +kernel⟩

open TreesAux in
/-- A scan may cut an assignment off: of `x=a==b&&c` it encloses `x=a==b`, and what was assigned is compared no more with `c`. -/
theorem Grouping.not_trees_run : ¬∀ (st : Style) (g : Grouping), g.strand.WellLinked →
    (∀ sr ∈ g.scans st, ∃ F, sr.1.Holds sr.2 F) → (g.run st).strand.trees = g.strand.trees := by
  intro h
  have hscans : cutCondition.scans { groupConditions := true } = [(cutCondition.strand, regionFromTo 1 9)] := by
    decide +kernel
  have hfits : (leaves ([2, 3, 4, 5, 6, 7, 8].map (entryOf cutCondition)) .nil).Fits 1 :=
    fits_leaves (by decide +kernel) trivial
  have htrees : (cutCondition.run { groupConditions := true }).strand.trees ≠ cutCondition.strand.trees := by decide +kernel
  refine htrees (h _ _ (Strand.wellLinked_ofLexemes _ _) ?_)
  intro sr hsr
  rw [hscans, List.mem_singleton] at hsr
  rw [hsr]
  exact ⟨_, by decide +kernel, ⟨1, hfits⟩, by decide +kernel⟩

end CodeGroom
