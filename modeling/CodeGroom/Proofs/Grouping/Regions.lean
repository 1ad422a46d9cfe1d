import CodeGroom.Grouping.Passes
import CodeGroom.Proofs.Grouping.Scanning

/-!
# Scanning whole regions

A region with a directive in it is left alone. Any other region with matched brackets is scanned to its end.
-/

namespace CodeGroom

namespace Forest

/-- What a scan of a whole region makes of the forest in it. -/
inductive Scanned : Forest → Forest → Prop where
  | blocked {F : Forest} : ¬F.OutsideDirectives → Scanned F F
  | grouped {F out : Forest} : F.OutsideDirectives → Grouped none false nil F out → Scanned F out

variable {F G H : Forest} {d : Int}

/-- A scan leaves brackets matched. -/
theorem Scanned.fits (h : Scanned F G) (hf : F.Fits d) : G.Fits d := by
  cases h with
  | blocked _ => exact hf
  | grouped hout hgrouped => exact hgrouped.fits trivial hf outsideDirectives_nil hout

/-- Scanning a region again leaves it as it is. -/
theorem Scanned.eq_of_scanned (h : Scanned F G) (h' : Scanned G H) : H = G := by
  cases h with
  | blocked hdir =>
    cases h' with
    | blocked _ => rfl
    | grouped hout _ => exact absurd hout hdir
  | grouped hout hgrouped =>
    cases h' with
    | blocked hdir => exact absurd (hgrouped.outsideDirectives outsideDirectives_nil hout) hdir
    | grouped _ hgrouped' => exact hgrouped'.eq_of_quiet (hgrouped.quiet trivial rfl)

end Forest

namespace Grouping

variable {g : Grouping} {p q : List Entry} {a z : Entry} {F : Forest} {d : Int}

/-- The directive in a region, if there is one. -/
theorem directiveBetween_eq_none_iff (h : g.strand.Lists (p ++ a :: (F.flatten ++ z :: q))) :
    g.strand.directiveBetween (some a.name) (some z.name) = none ↔ F.OutsideDirectives := by
  rw [Strand.directiveBetween, h.between_eq, List.find?_eq_none]
  constructor
  · intro hnone e he
    have hdir := hnone e.name (Entry.mem_names he)
    rw [h.inDirective_eq (by simp [he])] at hdir
    simpa using hdir
  · intro hout i hi
    obtain ⟨e, he, rfl⟩ := List.mem_map.1 hi
    rw [h.inDirective_eq (by simp [he]), hout e he]
    simp

/-- A region with a directive in it is left alone. -/
theorem scan_blocked {r : Region} {i : Nat} (h : g.strand.directiveBetween r.first r.last = some i) :
    (g.scan r).strand = g.strand ∧ (g.scan r).pairs = g.pairs := by
  simp [scan, announce, h, note]

/-- A region without directives is scanned from its start on. -/
theorem exists_scan_eq {r : Region} (h : g.strand.directiveBetween r.first r.last = none) :
    ∃ e, g.scan r = scanFrom r .full r ⟨r.first, false, g.strand.nextCode r.first⟩ (g.note e) := by
  refine ⟨.scanStarted r.nest (g.strand.sighting r.first) (g.strand.sighting r.last), ?_⟩
  simp [scan, announce, h, Region.start, note]

/-- A scan of a region with matched brackets comes to its end, and makes of it what the relation on forests says. -/
theorem scan_scanned (nest : Nat) (h : g.strand.Lists (p ++ a :: (F.flatten ++ z :: q))) (hfits : F.Fits d)
    (hcode : z.isLayout = false)
    (hz : z.inDirective = false) :
    ∃ out, F.Scanned out ∧
      Became ⟨some a.name, some z.name, nest⟩ g (g.scan ⟨some a.name, some z.name, nest⟩) (p ++ [a]) out (z :: q) := by
  cases hdir : g.strand.directiveBetween (some a.name) (some z.name) with
  | some i =>
    have hscan := scan_blocked (r := ⟨some a.name, some z.name, nest⟩) hdir
    have hblocked : ¬F.OutsideDirectives := fun hout => by
      rw [(directiveBetween_eq_none_iff h).2 hout] at hdir
      cases hdir
    refine ⟨F, .blocked hblocked, ?_, [], hscan.2, by simp⟩
    rw [hscan.1]
    simpa using h
  | none =>
    have hout := (directiveBetween_eq_none_iff h).1 hdir
    obtain ⟨e, he⟩ := exists_scan_eq (r := ⟨some a.name, some z.name, nest⟩) hdir
    have hat : ScanAt (g.note e) ⟨some a.name, some z.name, nest⟩ ⟨some a.name, false, g.strand.nextCode (some a.name)⟩ p a
        .nil F z q none d := by
      refine ⟨h, ?_, ⟨a, by simp, rfl⟩, rfl, ⟨fun _ => rfl, fun _ => rfl⟩, trivial, hfits, Forest.outsideDirectives_nil,
        hout, hcode, hz⟩
      rw [h.nextCode_eq]
      rfl
    obtain ⟨out, hgrouped, hbecame⟩ := scanFrom_grouped ⟨some a.name, some z.name, nest⟩ _ hat (Countdown.outlasts_full _)
    rw [he]
    exact ⟨out, .grouped hout hgrouped, hbecame.lists, hbecame.pairs⟩

/-! ## Without a new pair nothing changes -/

/-- One grouping has pairs beyond those of another and two lexemes for each; without any it holds the same strand. -/
def Extends (g g' : Grouping) : Prop :=
  ∃ new : List Insertion, g'.pairs = new ++ g.pairs ∧ g'.strand.size = g.strand.size + 2 * new.length ∧
    (new = [] → g'.strand = g.strand)

/-- A grouping extends itself. -/
theorem Extends.refl (g : Grouping) : Extends g g := ⟨[], rfl, rfl, fun _ => rfl⟩

/-- What extends an extension extends the first one. -/
theorem Extends.trans {g₁ g₂ : Grouping} (h : Extends g g₁) (h' : Extends g₁ g₂) : Extends g g₂ := by
  obtain ⟨new, hpairs, hsize, hsame⟩ := h
  obtain ⟨new', hpairs', hsize', hsame'⟩ := h'
  refine ⟨new' ++ new, by rw [hpairs', hpairs, List.append_assoc], ?_, ?_⟩
  · rw [hsize', hsize, List.length_append]
    omega
  · intro hnil
    obtain ⟨hn', hn⟩ := List.append_eq_nil_iff.1 hnil
    rw [hsame' hn', hsame hn]

/-- Reporting extends a grouping by nothing. -/
theorem Extends.note (e : Event) (g : Grouping) : Extends g (g.note e) := ⟨[], rfl, rfl, fun _ => rfl⟩

/-- A grouping with as many lexemes as the one that it extends has the same strand and the same pairs. -/
theorem Extends.eq_of_size_eq {g' : Grouping} (h : Extends g g') (hsize : g'.strand.size = g.strand.size) :
    g'.strand = g.strand ∧ g'.pairs = g.pairs := by
  obtain ⟨new, hpairs, hlen, hsame⟩ := h
  have hnil : new = [] := List.length_eq_zero_iff.1 (by omega)
  exact ⟨hsame hnil, by rw [hpairs, hnil, List.nil_append]⟩

/-- Changes of lexemes add none. -/
theorem size_modifyAll (s : Strand) (is : List Nat) (f : Lexeme → Lexeme) : (s.modifyAll is f).size = s.size := by
  induction is generalizing s with
  | nil => rfl
  | cons i is ih => exact (ih (s.modify i f)).trans Strand.size_modify

/-- Enclosing a run extends a grouping by a pair, or by nothing. -/
theorem Extends.enclose (top : Region) (first last : Option Nat) (g : Grouping) : Extends g (g.enclose top first last) := by
  by_cases h : g.strand.nextCode first = last
  · have hsame : g.enclose top first last = g := by rw [Grouping.enclose, if_pos h]
    rw [hsame]
    exact .refl g
  · refine ⟨[_], pairs_enclose h, ?_, fun hnil => by cases hnil⟩
    rw [strand_enclose h]
    simp [enclosedAt, openAt, closeAt, Strand.shiftLine, size_modifyAll, Strand.insertAfter, Strand.insertBefore]

/-- The end of a region extends it by at most a pair. -/
theorem Extends.finishRegion (top r : Region) (c : Cursor) (g : Grouping) : Extends g (g.finishRegion top r c) := by
  unfold Grouping.finishRegion
  split_ifs
  · exact .enclose _ _ _ _
  · exact .refl g

theorem Extends.announce (g : Grouping) (r : Region) : Extends g (g.announce r).1 := by
  unfold Grouping.announce
  dsimp only
  split
  · exact (Extends.note _ _).trans (.note _ _)
  · exact .note _ _

/-- What a scan has made of the grouping when it goes on. -/
def Progress.grouping : Progress → Grouping
  | done g => g
  | onward _ g => g
  | inward _ _ g => g

/-- Whatever a scan does next, it extends the grouping. -/
theorem Extends.look (top r : Region) (c : Cursor) (g : Grouping) : Extends g (look top r c g).grouping := by
  unfold Grouping.look
  dsimp only
  split_ifs
  · exact .finishRegion _ _ _ _
  · exact .enclose _ _ _ _
  · exact .refl g
  · split
    · exact .refl g
    · exact .refl g
    · split
      · split_ifs
        · exact .refl g
        · exact .finishRegion _ _ _ _
      · split_ifs
        · exact .announce _ _
        · exact .announce _ _
        · exact .refl g
    · exact .refl g

/-- A scan from a cursor on extends it, however long the countdown is. -/
theorem Extends.scanFrom (top : Region) (t : Countdown) (r : Region) (c : Cursor) (g : Grouping) :
    Extends g (scanFrom top t r c g) := by
  induction t generalizing r c g with
  | spent => exact .refl g
  | step rest ih =>
    have hlook := Extends.look top r c g
    unfold Grouping.scanFrom
    generalize Grouping.look top r c g = next at hlook ⊢
    cases next with
    | done g' => exact hlook
    | onward c' g' => exact hlook.trans (ih _ _ _ _)
    | inward inner i g' => exact (hlook.trans (ih _ _ _ _)).trans (ih _ _ _ _)

/-- A scan of a region extends it. -/
theorem Extends.scan (g : Grouping) (r : Region) : Extends g (g.scan r) := by
  unfold Grouping.scan
  dsimp only
  split_ifs
  · exact .announce _ _
  · exact (Extends.announce _ _).trans (.scanFrom _ _ _ _ _)

theorem Extends.scanTo (g : Grouping) (i : Nat) (kind : Kind) : Extends g (g.scanTo i kind).1 := by
  unfold Grouping.scanTo
  split
  · exact .refl g
  · exact .scan _ _

/-- Visits that extend a grouping extend it together. -/
theorem Extends.visitAll {visit : Grouping → Nat → Grouping × Nat} (hvisit : ∀ g i, Extends g (visit g i).1) (t : Countdown)
    (at? : Option Nat) (g : Grouping) : Extends g (visitAll visit t at? g) := by
  induction t generalizing at? g with
  | spent => exact .refl g
  | step rest ih =>
    cases at? with
    | none => exact .refl g
    | some i => exact (hvisit g i).trans (ih _ _ _)

theorem Extends.visitCondition (g : Grouping) (i : Nat) : Extends g (g.visitCondition i).1 := by
  unfold Grouping.visitCondition
  dsimp only
  split_ifs
  · exact .scanTo _ _ _
  · exact .refl g

/-- The pass over conditions extends it. -/
theorem Extends.conditions (st : Style) (g : Grouping) : Extends g (g.conditions st) := by
  unfold Grouping.conditions Grouping.pass
  split_ifs
  · exact .visitAll Extends.visitCondition _ _ _
  · exact .note _ _

end Grouping

end CodeGroom
