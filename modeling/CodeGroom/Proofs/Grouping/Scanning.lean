import CodeGroom.Grouping.Scan
import CodeGroom.Proofs.Grouping.Countdown
import CodeGroom.Proofs.Grouping.Enclose

/-!
# Scanning matched brackets

A scan of a region whose brackets match stays in the region, comes to its end, and makes of it what the relation on forests says.
Every step passes an entry, so the countdown outlasts it.
-/

namespace CodeGroom

namespace Grouping

variable {g g' : Grouping} {top r : Region} {t : Countdown}

section Steps

variable {i j : Nat} {ref : Option Nat} {compared : Bool} {c c' : Cursor} {inner : Region} {rest : Nat → Countdown}

/-! ## The steps of a scan -/

/-- A scan that has come to its end. -/
theorem scanFrom_done (h : look top r c g = .done g') : scanFrom top (.step rest) r c g = g' := by
  rw [scanFrom, h]

/-- A scan that goes on. -/
theorem scanFrom_onward (h : look top r c g = .onward c' g') :
    scanFrom top (.step rest) r c g = scanFrom top (rest g'.strand.size) r c' g' := by
  rw [scanFrom, h]

/-- A scan that scans a bracket first. -/
theorem scanFrom_inward {g₁ g₂ : Grouping} (h : look top r c g = .inward inner i g₁)
    (hinner : scanFrom top (rest g₁.strand.size) inner (inner.start g₁.strand) g₁ = g₂) : scanFrom top (.step rest) r c g =
      scanFrom top (rest g₂.strand.size) r { c with at? := g₂.strand.nextCode (some i) } g₂ := by
  rw [scanFrom, h, ← hinner]

/-- A scan ends at the end of its region. -/
theorem look_stop (h : c.at? = r.last) : look top r c g = .done (g.finishRegion top r c) := by
  simp [look, h]

/-- A run without a comparison ends at a border. -/
theorem look_border (hi : some i ≠ r.last) (hk : (g.strand.lexeme (some i)).kind.endsRun = true) :
    look top r ⟨ref, false, some i⟩ g = .onward ⟨some i, false, g.strand.nextCode (some i)⟩ g := by
  simp [look, hi, hk]

/-- A run with a comparison ends at a border and is enclosed. -/
theorem look_borderEnclosed (hi : some i ≠ r.last) (hk : (g.strand.lexeme (some i)).kind.endsRun = true) :
    look top r ⟨ref, true, some i⟩ g =
      .onward ⟨some i, false, (g.enclose top ref (some i)).strand.nextCode (some i)⟩ (g.enclose top ref (some i)) := by
  simp [look, hi, hk]

/-- A comparison is met. -/
theorem look_compare (hi : some i ≠ r.last) (hk : (g.strand.lexeme (some i)).kind = .compare) :
    look top r ⟨ref, compared, some i⟩ g = .onward ⟨ref, true, g.strand.nextCode (some i)⟩ g := by
  simp [look, hi, hk, Kind.endsRun]

/-- A semicolon ends a run that is not enclosed. -/
theorem look_semicolon (hi : some i ≠ r.last) (hk : (g.strand.lexeme (some i)).kind = .semicolon) :
    look top r ⟨ref, compared, some i⟩ g = .onward ⟨some i, false, g.strand.nextCode (some i)⟩ g := by
  simp [look, hi, hk, Kind.endsRun]

/-- Any other lexeme but an opening bracket is taken into the run. -/
theorem look_word {k : Kind} (hi : some i ≠ r.last) (hk : (g.strand.lexeme (some i)).kind = k)
    (hends : k.endsRun = false) (hcmp : k ≠ .compare) (hsemi : k ≠ .semicolon) (hopen : ∀ b, k ≠ .opening b) :
    look top r ⟨ref, compared, some i⟩ g = .onward ⟨ref, compared, g.strand.nextCode (some i)⟩ g := by
  cases k <;> simp_all [look]

/-- A round bracket without a directive in it is scanned first. -/
theorem exists_look_round (top : Region) (ref : Option Nat) (compared : Bool) {b : Bracket} (hi : some i ≠ r.last)
    (hk : (g.strand.lexeme (some i)).kind = .opening b) (hround : b.isRound = true) (hj : g.strand.partner (some i) = some j)
    (hdir : g.strand.directiveBetween (some i) (some j) = none) :
    ∃ e : Event, look top r ⟨ref, compared, some i⟩ g = .inward ⟨some i, some j, r.nest + 1⟩ j (g.note e) := by
  refine ⟨.scanStarted (r.nest + 1) (g.strand.sighting (some i)) (g.strand.sighting (some j)), ?_⟩
  simp [look, hi, hk, hround, hj, Kind.endsRun, announce, hdir, note]

/-- Any other bracket is passed over. -/
theorem look_bracket {b : Bracket} (hi : some i ≠ r.last) (hk : (g.strand.lexeme (some i)).kind = .opening b)
    (hround : b.isRound = false) (hj : g.strand.partner (some i) = some j) :
    look top r ⟨ref, compared, some i⟩ g = .onward ⟨ref, compared, g.strand.nextCode (some j)⟩ g := by
  simp [look, hi, hk, hround, hj, Kind.endsRun]

end Steps

/-! ## Where a scan is, and what it has done -/

/-- The name of the first code among some entries. -/
def nextName (es : List Entry) : Option Nat := (es.find? (!·.isLayout)).map (·.name)

theorem nextName_layout {e : Entry} (es : List Entry) (h : e.isLayout = true) : nextName (e :: es) = nextName es := by
  simp [nextName, h]

/-- Code in front is the next code. -/
theorem nextName_code {e : Entry} (es : List Entry) (h : e.isLayout = false) : nextName (e :: es) = some e.name := by
  simp [nextName, h]

/-- A scan is in a region that ends with `z`, in a run behind `ref`, with a part of the region still to come. -/
structure ScanAt (g : Grouping) (r : Region) (c : Cursor) (p : List Entry) (ref : Entry) (run rest : Forest) (z : Entry)
    (q : List Entry) (left : Option Kind) (d : Int) : Prop where
  lists : g.strand.Lists (p ++ ref :: (run.flatten ++ (rest.flatten ++ z :: q)))
  cursor : c = ⟨some ref.name, run.hasCompare, nextName (rest.flatten ++ z :: q)⟩
  first : ∃ a ∈ p ++ [ref], r.first = some a.name
  last : r.last = some z.name
  left_iff : left = none ↔ r.first = some ref.name
  fitsRun : run.Fits d
  fitsRest : rest.Fits d
  outsideRun : run.OutsideDirectives
  outsideRest : rest.OutsideDirectives
  lastCode : z.isLayout = false
  lastOutside : z.inDirective = false

/-- The pairs that one grouping has beyond another were inserted for `top` and stand among `es`. -/
def NewPairs (top : Region) (g g' : Grouping) (es : List Entry) : Prop :=
  ∃ new, g'.pairs = new ++ g.pairs ∧ ∀ i ∈ new, i.region = top ∧ [i.opening, i.closing].Sublist (Entry.names es)

theorem NewPairs.refl (es : List Entry) : NewPairs top g g es :=
  ⟨[], rfl, fun _ hi => absurd hi List.not_mem_nil⟩

/-- New pairs stand in what holds them. -/
theorem NewPairs.mono {g' : Grouping} {es es' : List Entry} (h : NewPairs top g g' es)
    (hsub : (Entry.names es).Sublist (Entry.names es')) : NewPairs top g g' es' := by
  obtain ⟨new, hnew, hin⟩ := h
  exact ⟨new, hnew, fun i hi => ⟨(hin i hi).1, (hin i hi).2.trans hsub⟩⟩

/-- New pairs may be followed by more of them. -/
theorem NewPairs.trans {g₁ g₂ : Grouping} {es : List Entry} (h : NewPairs top g g₁ es) (h' : NewPairs top g₁ g₂ es) :
    NewPairs top g g₂ es := by
  obtain ⟨new, hnew, hin⟩ := h
  obtain ⟨new', hnew', hin'⟩ := h'
  refine ⟨new' ++ new, by rw [hnew', hnew, List.append_assoc], ?_⟩
  intro i hi
  rcases List.mem_append.1 hi with hi | hi
  · exact hin' i hi
  · exact hin i hi

/-- One grouping became another that lists `out` where the region was, and every new pair was inserted for `top` and stands in
`out`. -/
structure Became (top : Region) (g g' : Grouping) (p : List Entry) (out : Forest) (q : List Entry) : Prop where
  lists : g'.strand.Lists (p ++ (out.flatten ++ q))
  pairs : NewPairs top g g' out.flatten

namespace ScanAt

variable {c : Cursor} {p q : List Entry} {a z e o w : Entry} {run rest inner out : Forest} {left : Option Kind} {d : Int}

theorem not_isLayout (h : run.hasCompare = true) : ¬run.IsLayout := fun hl => by
  rw [hl.hasCompare] at h
  cases h

/-- The next entry as it stands in the listing. -/
theorem lists_next {es : List Entry} (h : ScanAt g r c p a run rest z q left d) (hrest : rest.flatten = e :: es) :
    g.strand.Lists ((p ++ a :: run.flatten) ++ e :: (es ++ z :: q)) := by
  have hlists := h.lists
  rw [hrest] at hlists
  simpa using hlists

/-- The region does not end at the next entry. -/
theorem ne_last {es : List Entry} (h : ScanAt g r c p a run rest z q left d) (hrest : rest.flatten = e :: es) :
    some e.name ≠ r.last := by
  rw [h.last]
  intro heq
  exact name_ne (h.lists_next hrest) (by simp) (Option.some.inj heq)

/-- The region starts in front of the next entry. -/
theorem ne_first {es : List Entry} (h : ScanAt g r c p a run rest z q left d) (hrest : rest.flatten = e :: es) :
    r.first ≠ some e.name := by
  obtain ⟨b, hb, hfirst⟩ := h.first
  rw [hfirst]
  intro heq
  have hlists := h.lists_next hrest
  have hbe : b = e := by
    refine hlists.name_injOn ?_ (by simp) (Option.some.inj heq)
    simp only [List.mem_append, List.mem_cons] at hb ⊢
    tauto
  have hnodup := hlists.linked.nodup.of_map
  rw [List.nodup_append] at hnodup
  refine hnodup.2.2 e ?_ e List.mem_cons_self rfl
  rw [← hbe]
  simp only [List.mem_append, List.mem_cons] at hb ⊢
  tauto

/-- The rest of the region is no longer than the strand. -/
theorem within_size (h : ScanAt g r c p a run rest z q left d) : (⟨0, 0, rest.flatten.length⟩ : Distance).Within g.strand.size := by
  have hlength := h.lists.linked.length_eq
  simp only [Entry.names, List.length_map, List.length_append, List.length_cons] at hlength
  exact ⟨Nat.zero_le _, Nat.zero_le _, by dsimp only; omega⟩

/-- The next entry is taken into the run. -/
theorem take (h : ScanAt g r c p a run (.leaf e rest) z q left d) :
    ScanAt g r ⟨some a.name, (run ++ .leaf e .nil).hasCompare, nextName (rest.flatten ++ z :: q)⟩ p a
      (run ++ .leaf e .nil) rest z q left d where
  lists := by simpa using h.lists
  cursor := rfl
  first := h.first
  last := h.last
  left_iff := h.left_iff
  fitsRun := Forest.fits_append.2 ⟨h.fitsRun, h.fitsRest.1, h.fitsRest.2.1, trivial⟩
  fitsRest := h.fitsRest.2.2
  outsideRun := Forest.outsideDirectives_append.2 ⟨h.outsideRun,
    Forest.outsideDirectives_leaf.2 ⟨(Forest.outsideDirectives_leaf.1 h.outsideRest).1, Forest.outsideDirectives_nil⟩⟩
  outsideRest := (Forest.outsideDirectives_leaf.1 h.outsideRest).2
  lastCode := h.lastCode
  lastOutside := h.lastOutside

/-- The next entry ends the run, which may have been enclosed before. -/
theorem border {g' : Grouping} {run' : Forest} (k : Kind) (h : ScanAt g r c p a run (.leaf e rest) z q left d)
    (hlists : g'.strand.Lists (p ++ a :: (run'.flatten ++ e :: (rest.flatten ++ z :: q)))) :
    ScanAt g' r ⟨some e.name, false, nextName (rest.flatten ++ z :: q)⟩ (p ++ a :: run'.flatten) e .nil rest z q (some k)
      d where
  lists := by simpa using hlists
  cursor := rfl
  first := by
    obtain ⟨b, hb, hfirst⟩ := h.first
    refine ⟨b, ?_, hfirst⟩
    simp only [List.mem_append, List.mem_cons] at hb ⊢
    tauto
  last := h.last
  left_iff := ⟨(fun hk => by cases hk), fun heq => absurd heq (h.ne_first rfl)⟩
  fitsRun := trivial
  fitsRest := h.fitsRest.2.2
  outsideRun := Forest.outsideDirectives_nil
  outsideRest := (Forest.outsideDirectives_leaf.1 h.outsideRest).2
  lastCode := h.lastCode
  lastOutside := h.lastOutside

/-- A scan of a round bracket in the region starts in it. -/
theorem enter (h : ScanAt g r c p a run (.group o inner w rest) z q left d) (e : Event) :
    ScanAt (g.note e) ⟨some o.name, some w.name, r.nest + 1⟩
      ⟨some o.name, false, nextName (inner.flatten ++ w :: (rest.flatten ++ z :: q))⟩ (p ++ a :: run.flatten) o .nil inner w
      (rest.flatten ++ z :: q) none (d + 1) where
  lists := by
    show g.strand.Lists _
    simpa using h.lists
  cursor := rfl
  first := ⟨o, by simp, rfl⟩
  last := rfl
  left_iff := ⟨fun _ => rfl, fun _ => rfl⟩
  fitsRun := trivial
  fitsRest := h.fitsRest.2.2.2.1
  outsideRun := Forest.outsideDirectives_nil
  outsideRest := (Forest.outsideDirectives_group.1 h.outsideRest).2.1
  lastCode := by
    obtain ⟨b, -, hw⟩ := h.fitsRest.1
    exact Forest.isLayout_of_closing hw
  lastOutside := (Forest.outsideDirectives_group.1 h.outsideRest).2.2.1

/-- A bracket in the region is passed over, as it was or as a scan has left it. -/
theorem leave {g' : Grouping} {inner' : Forest} (h : ScanAt g r c p a run (.group o inner w rest) z q left d)
    (hlists : g'.strand.Lists (p ++ a :: (run.flatten ++ o :: (inner'.flatten ++ w :: (rest.flatten ++ z :: q)))))
    (hfits : inner'.Fits (d + 1)) (hout : inner'.OutsideDirectives) :
    ScanAt g' r ⟨some a.name, run.hasCompare, nextName (rest.flatten ++ z :: q)⟩ p a (run ++ .group o inner' w .nil) rest z q
      left d where
  lists := by simpa using hlists
  cursor := by rw [Forest.hasCompare_append, Forest.hasCompare, Forest.hasCompare, Bool.or_false]
  first := h.first
  last := h.last
  left_iff := h.left_iff
  fitsRun := by
    obtain ⟨hb, hd, hdir, -, -⟩ := h.fitsRest
    exact Forest.fits_append.2 ⟨h.fitsRun, hb, hd, hdir, hfits, trivial⟩
  fitsRest := h.fitsRest.2.2.2.2
  outsideRun := by
    obtain ⟨ho, -, hw, -⟩ := Forest.outsideDirectives_group.1 h.outsideRest
    exact Forest.outsideDirectives_append.2
      ⟨h.outsideRun, Forest.outsideDirectives_group.2 ⟨ho, hout, hw, Forest.outsideDirectives_nil⟩⟩
  outsideRest := (Forest.outsideDirectives_group.1 h.outsideRest).2.2.2
  lastCode := h.lastCode
  lastOutside := h.lastOutside

/-- The partner of an opening bracket in the region is the closing one of its group. -/
theorem partner (h : ScanAt g r c p a run (.group o inner w rest) z q left d) :
    g.strand.partner (some o.name) = some w.name := by
  obtain ⟨hkinds, ⟨ho, hw⟩, -, hinner, -⟩ := h.fitsRest
  have hlists : g.strand.Lists ((p ++ a :: run.flatten) ++ o :: (inner.flatten ++ w :: (rest.flatten ++ z :: q))) := by
    simpa using h.lists
  exact hlists.partner_group ⟨hkinds, hw.trans ho.symm, ho ▸ hinner⟩

/-- No directive lies in a bracket of the region. -/
theorem directiveBetween (h : ScanAt g r c p a run (.group o inner w rest) z q left d) :
    g.strand.directiveBetween (some o.name) (some w.name) = none := by
  have hlists : g.strand.Lists ((p ++ a :: run.flatten) ++ o :: (inner.flatten ++ w :: (rest.flatten ++ z :: q))) := by
    simpa using h.lists
  have hinner := (Forest.outsideDirectives_group.1 h.outsideRest).2.1
  rw [Strand.directiveBetween, hlists.between_eq, List.find?_eq_none]
  intro i hi
  obtain ⟨e, he, rfl⟩ := List.mem_map.1 hi
  rw [hlists.inDirective_eq (by simp [he]), hinner e he]
  simp

end ScanAt

/-- What a scan made of the entries behind one that ended a run, and what became of that run before. -/
theorem Became.behind {g₁ g₂ : Grouping} {p q : List Entry} {a e : Entry} {run' out : Forest}
    (h : NewPairs top g g₁ run'.flatten) (h' : Became top g₁ g₂ ((p ++ a :: run'.flatten) ++ [e]) out q) :
    Became top g g₂ (p ++ [a]) (run' ++ .leaf e out) q where
  lists := by simpa using h'.lists
  pairs := by
    have hflat : Entry.names (run' ++ .leaf e out).flatten =
        Entry.names run'.flatten ++ e.name :: Entry.names out.flatten := by simp
    refine (h.mono ?_).trans (h'.pairs.mono ?_)
    · rw [hflat]
      exact List.sublist_append_left _ _
    · rw [hflat]
      exact (List.sublist_cons_self _ _).trans (List.sublist_append_right _ _)

/-- Enclosing the run that a scan is in. -/
theorem ScanAt.enclose {c : Cursor} {p q : List Entry} {a z e : Entry} {es : List Entry} {run rest : Forest}
    {left : Option Kind} {d : Int} (h : ScanAt g r c p a run rest z q left d) (hcmp : run.hasCompare = true)
    (hnext : rest.flatten ++ z :: q = e :: es) (he : e.inDirective = false) :
    ∃ run', run.Enclosed run' ∧ Became top g (g.enclose top (some a.name) (some e.name)) (p ++ [a]) run' (e :: es) := by
  have hlists := h.lists
  rw [hnext] at hlists
  obtain ⟨run', i, henc, hlists', hpairs, hregion, hsub⟩ :=
    exists_enclosed top hlists h.fitsRun h.outsideRun (ScanAt.not_isLayout hcmp) he
  refine ⟨run', henc, by simpa using hlists', [i], hpairs, ?_⟩
  intro j hj
  rw [List.mem_singleton.1 hj]
  exact ⟨hregion, hsub⟩

/-! ## A whole scan -/

section Cases

open ScanAt Forest Distance

/-- A scan that has some part of its region still to come makes of it what the relation on forests says. -/
def Scanned (top : Region) (rest : Forest) : Prop :=
  ∀ ⦃g : Grouping⦄ ⦃r : Region⦄ ⦃t : Countdown⦄ ⦃c : Cursor⦄ ⦃p q : List Entry⦄ ⦃a z : Entry⦄ ⦃run : Forest⦄ ⦃left : Option Kind⦄
    ⦃d : Int⦄, ScanAt g r c p a run rest z q left d → t.Outlasts ⟨0, 0, rest.flatten.length⟩ →
      ∃ out, Grouped left run.hasCompare run rest out ∧ Became top g (scanFrom top t r c g) (p ++ [a]) out (z :: q)

variable {e o w : Entry} {rest inner : Forest} {b : Bracket}

/-- One more entry decides whether a run has a comparison. -/
theorem hasCompare_take (run : Forest) (e : Entry) :
    (run ++ leaf e nil).hasCompare = (run.hasCompare || decide (e.kind = .compare)) := by
  rw [hasCompare_append, hasCompare, hasCompare, Bool.or_false]

/-- A bracket decides nothing about that. -/
theorem hasCompare_leave (run inner : Forest) (o w : Entry) : (run ++ group o inner w nil).hasCompare = run.hasCompare := by
  rw [hasCompare_append, hasCompare, hasCompare, Bool.or_false]

/-- A bracket has more entries than what it holds, and more than what is behind it. -/
theorem length_lt_group (o w : Entry) (inner rest : Forest) :
    inner.flatten.length < (group o inner w rest).flatten.length ∧
      rest.flatten.length < (group o inner w rest).flatten.length := by
  simp only [flatten_group, List.length_cons, List.length_append]
  omega

/-- At the end of the region the scan ends. -/
theorem scanned_nil (top : Region) : Scanned top .nil := by
  intro g r t c p q a z run left d h ht
  obtain ⟨more, rfl, -⟩ := ht.exists_step
  have hat : c.at? = r.last := by
    rw [h.cursor, h.last]
    exact nextName_code _ h.lastCode
  have hlists : g.strand.Lists ((p ++ [a]) ++ (run.flatten ++ z :: q)) := by simpa using h.lists
  rw [scanFrom_done (look_stop hat)]
  cases hcmp : run.hasCompare with
  | false =>
    have hfinish : g.finishRegion top r c = g := by simp [finishRegion, h.cursor, hcmp]
    rw [hfinish]
    exact ⟨run, .done (by simp), hlists, .refl _⟩
  | true =>
    cases left with
    | none =>
      have hfinish : g.finishRegion top r c = g := by simp [finishRegion, h.cursor, h.left_iff.1 rfl]
      rw [hfinish]
      exact ⟨run, .done (by simp), hlists, .refl _⟩
    | some k =>
      have hne : r.first ≠ some a.name := fun heq => by cases h.left_iff.2 heq
      have hfinish : g.finishRegion top r c = g.enclose top (some a.name) (some z.name) := by
        simp [finishRegion, h.cursor, hcmp, h.last, hne.symm]
      rw [hfinish]
      obtain ⟨run', henc, hbecame⟩ := h.enclose hcmp rfl h.lastOutside
      exact ⟨run', .doneEnclosed henc, hbecame⟩

/-- Layout is not looked at. -/
theorem Scanned.layout (ih : Scanned top rest) (hlayout : e.isLayout = true) : Scanned top (.leaf e rest) := by
  intro g r t c p q a z run left d h ht
  obtain ⟨hends, hcompare, hsemicolon⟩ : e.kind.endsRun = false ∧ e.kind ≠ .compare ∧ e.kind ≠ .semicolon := by
    rcases Entry.isLayout_iff.1 hlayout with hk | hk <;> rw [hk] <;> decide
  have hsame : (run ++ leaf e nil).hasCompare = run.hasCompare := by
    rw [hasCompare_take, decide_eq_false hcompare, Bool.or_false]
  have htake := h.take
  have hcursor : c = ⟨some a.name, (run ++ leaf e nil).hasCompare, nextName (rest.flatten ++ z :: q)⟩ := by
    rw [h.cursor, hsame, flatten_leaf, List.cons_append, nextName_layout _ hlayout]
  rw [← hcursor] at htake
  obtain ⟨out, hgrouped, hbecame⟩ := ih htake (ht.mono (less_of_length (by simp)))
  rw [hsame] at hgrouped
  exact ⟨out, .word hends hcompare hsemicolon hgrouped, hbecame⟩

/-- Code that ends a run, with a comparison or without one. -/
theorem Scanned.border (ih : Scanned top rest) (hcode : e.isLayout = false) (hends : e.kind.endsRun = true) :
    Scanned top (.leaf e rest) := by
  intro g r t c p q a z run left d h ht
  obtain ⟨more, rfl, hmore⟩ := ht.exists_step
  have hlists := h.lists_next rfl
  have hkind : (g.strand.lexeme (some e.name)).kind = e.kind := hlists.kind_eq (by simp)
  have hne := h.ne_last (e := e) rfl
  have hcursor : c = ⟨some a.name, run.hasCompare, some e.name⟩ := by
    rw [h.cursor, flatten_leaf, List.cons_append, nextName_code _ hcode]
  rw [hcursor]
  cases hcmp : run.hasCompare with
  | false =>
    have hborder := h.border e.kind h.lists
    rw [scanFrom_onward (look_border hne (hkind ▸ hends)), hlists.nextCode_eq]
    obtain ⟨out, hgrouped, hbecame⟩ := ih hborder (hmore _ _ hborder.within_size (less_of_length (by simp)))
    exact ⟨run ++ leaf e out, .border hends hgrouped, .behind (.refl _) hbecame⟩
  | true =>
    obtain ⟨run', henc, hrun'⟩ := h.enclose hcmp rfl (outsideDirectives_leaf.1 h.outsideRest).1
    have hlists' : (g.enclose top (some a.name) (some e.name)).strand.Lists
        ((p ++ a :: run'.flatten) ++ e :: (rest.flatten ++ z :: q)) := by simpa using hrun'.lists
    have hborder := h.border e.kind (by simpa using hlists')
    rw [scanFrom_onward (look_borderEnclosed hne (hkind ▸ hends)), hlists'.nextCode_eq]
    obtain ⟨out, hgrouped, hbecame⟩ := ih hborder (hmore _ _ hborder.within_size (less_of_length (by simp)))
    exact ⟨run' ++ leaf e out, .borderEnclosed hends henc hgrouped, .behind hrun'.pairs hbecame⟩

/-- Code that ends no run with a comparison: a comparison and a word are taken into the run, a semicolon starts another one. -/
theorem Scanned.code (ih : Scanned top rest) (hcode : e.isLayout = false) (hends : e.kind.endsRun = false) :
    Scanned top (.leaf e rest) := by
  intro g r t c p q a z run left d h ht
  obtain ⟨more, rfl, hmore⟩ := ht.exists_step
  have hlists := h.lists_next rfl
  have hkind : (g.strand.lexeme (some e.name)).kind = e.kind := hlists.kind_eq (by simp)
  have hnext : g.strand.nextCode (some e.name) = nextName (rest.flatten ++ z :: q) := hlists.nextCode_eq
  have hne := h.ne_last (e := e) rfl
  have hgo : ∀ {c' : Cursor} {p' : List Entry} {a' : Entry} {run' : Forest} {left' : Option Kind},
      ScanAt g r c' p' a' run' rest z q left' d → (more g.strand.size).Outlasts ⟨0, 0, rest.flatten.length⟩ := fun h' =>
    hmore _ _ h'.within_size (less_of_length (by simp))
  have hcursor : c = ⟨some a.name, run.hasCompare, some e.name⟩ := by
    rw [h.cursor, flatten_leaf, List.cons_append, nextName_code _ hcode]
  have htake := h.take
  rw [hcursor]
  by_cases hcompare : e.kind = .compare
  · rw [hasCompare_take, decide_eq_true hcompare, Bool.or_true] at htake
    rw [scanFrom_onward (look_compare hne (hkind ▸ hcompare)), hnext]
    obtain ⟨out, hgrouped, hbecame⟩ := ih htake (hgo htake)
    rw [hasCompare_take, decide_eq_true hcompare, Bool.or_true] at hgrouped
    exact ⟨out, .compare hcompare hgrouped, hbecame⟩
  by_cases hsemicolon : e.kind = .semicolon
  · have hborder := h.border .semicolon h.lists
    rw [scanFrom_onward (look_semicolon hne (hkind ▸ hsemicolon)), hnext]
    obtain ⟨out, hgrouped, hbecame⟩ := ih hborder (hgo hborder)
    exact ⟨run ++ leaf e out, .semicolon hsemicolon hgrouped, .behind (.refl _) hbecame⟩
  · have hopen : ∀ b, e.kind ≠ .opening b := fun b hb => by
      have hbracket := h.fitsRest.1
      rw [hb] at hbracket
      cases hbracket
    rw [hasCompare_take, decide_eq_false hcompare, Bool.or_false] at htake
    rw [scanFrom_onward (look_word hne hkind hends hcompare hsemicolon hopen), hnext]
    obtain ⟨out, hgrouped, hbecame⟩ := ih htake (hgo htake)
    rw [hasCompare_take, decide_eq_false hcompare, Bool.or_false] at hgrouped
    exact ⟨out, .word hends hcompare hsemicolon hgrouped, hbecame⟩

/-- A bracket that is not round is passed over. -/
theorem Scanned.bracket (ih : Scanned top rest) (ho : o.kind = .opening b) (hround : b.isRound = false) :
    Scanned top (.group o inner w rest) := by
  intro g r t c p q a z run left d h ht
  obtain ⟨more, rfl, hmore⟩ := ht.exists_step
  obtain ⟨-, -, -, hinner, -⟩ := h.fitsRest
  have hkind : (g.strand.lexeme (some o.name)).kind = .opening b := by rw [(h.lists_next rfl).kind_eq (by simp), ho]
  have hcursor : c = ⟨some a.name, run.hasCompare, some o.name⟩ := by
    rw [h.cursor, flatten_group, List.cons_append, nextName_code _ (isLayout_of_opening ho)]
  have hafter : g.strand.nextCode (some w.name) = nextName (rest.flatten ++ z :: q) := by
    have hw : g.strand.Lists ((p ++ a :: (run.flatten ++ o :: inner.flatten)) ++ w :: (rest.flatten ++ z :: q)) := by
      simpa using h.lists
    exact hw.nextCode_eq
  have hleave := h.leave (by simpa using h.lists) hinner (outsideDirectives_group.1 h.outsideRest).2.1
  rw [hcursor, scanFrom_onward (look_bracket (h.ne_last rfl) hkind hround h.partner), hafter]
  obtain ⟨out, hgrouped, hbecame⟩ := ih hleave (hmore _ _ hleave.within_size (less_of_length (length_lt_group ..).2))
  rw [hasCompare_leave] at hgrouped
  exact ⟨out, .bracket (by rw [ho]; exact hround) hgrouped, hbecame⟩

/-- A round bracket is scanned first; the rest of the region is then as it was. -/
theorem Scanned.round (ihi : Scanned top inner) (ih : Scanned top rest) (ho : o.kind = .opening b) (hround : b.isRound = true) :
    Scanned top (.group o inner w rest) := by
  intro g r t c p q a z run left d h ht
  obtain ⟨more, rfl, hmore⟩ := ht.exists_step
  obtain ⟨-, -, -, hinner, -⟩ := h.fitsRest
  have hkind : (g.strand.lexeme (some o.name)).kind = .opening b := by rw [(h.lists_next rfl).kind_eq (by simp), ho]
  have hcursor : c = ⟨some a.name, run.hasCompare, some o.name⟩ := by
    rw [h.cursor, flatten_group, List.cons_append, nextName_code _ (isLayout_of_opening ho)]
  obtain ⟨e, hlook⟩ :=
    exists_look_round top (some a.name) run.hasCompare (h.ne_last rfl) hkind hround h.partner h.directiveBetween
  have hfirst : g.strand.nextCode (some o.name) = nextName (inner.flatten ++ w :: (rest.flatten ++ z :: q)) := by
    have ho : g.strand.Lists ((p ++ a :: run.flatten) ++ o :: (inner.flatten ++ w :: (rest.flatten ++ z :: q))) := by
      simpa using h.lists
    exact ho.nextCode_eq
  have henter := h.enter e
  obtain ⟨inner', hgroupedi, hbecamei⟩ := ihi henter (hmore _ _ henter.within_size (less_of_length (length_lt_group ..).1))
  rw [← hfirst] at hbecamei
  generalize hg' : scanFrom top (more (g.note e).strand.size) ⟨some o.name, some w.name, r.nest + 1⟩
    ⟨some o.name, false, g.strand.nextCode (some o.name)⟩ (g.note e) = g' at hbecamei
  have hlists' : g'.strand.Lists (p ++ a :: (run.flatten ++ o :: (inner'.flatten ++ w :: (rest.flatten ++ z :: q)))) := by
    simpa using hbecamei.lists
  have hafter : g'.strand.nextCode (some w.name) = nextName (rest.flatten ++ z :: q) := by
    have hw : g'.strand.Lists ((p ++ a :: (run.flatten ++ o :: inner'.flatten)) ++ w :: (rest.flatten ++ z :: q)) := by
      simpa using hlists'
    exact hw.nextCode_eq
  have hdir := (outsideDirectives_group.1 h.outsideRest).2.1
  have hleave := h.leave hlists' (hgroupedi.fits trivial hinner outsideDirectives_nil hdir)
    (hgroupedi.outsideDirectives outsideDirectives_nil hdir)
  rw [hcursor, scanFrom_inward hlook hg', hafter]
  obtain ⟨out, hgrouped, hbecame⟩ := ih hleave (hmore _ _ hleave.within_size (less_of_length (length_lt_group ..).2))
  have hsub : (Entry.names (run ++ group o inner' w nil).flatten).Sublist (Entry.names out.flatten) := by
    refine List.Sublist.trans ?_ hgrouped.names_sublist
    rw [flatten_append _ rest, Entry.names_append]
    exact List.sublist_append_left _ _
  rw [hasCompare_leave] at hgrouped
  refine ⟨out, .round (by rw [ho]; exact hround) hgroupedi hgrouped, hbecame.lists, ?_⟩
  refine NewPairs.trans (hbecamei.pairs.mono (List.Sublist.trans ?_ hsub)) hbecame.pairs
  simp only [flatten_append, flatten_group, flatten_nil, Entry.names_append, Entry.names_cons]
  exact ((List.sublist_append_left _ _).cons _).trans (List.sublist_append_right _ _)

end Cases

/-- A scan goes through the rest of its region and makes of it what the relation on forests says. -/
theorem scanFrom_grouped (top : Region) (rest : Forest) : Scanned top rest := by
  induction rest with
  | nil => exact scanned_nil top
  | leaf e rest ih =>
    cases hlayout : e.isLayout with
    | true => exact ih.layout hlayout
    | false =>
      cases hends : e.kind.endsRun with
      | true => exact ih.border hlayout hends
      | false => exact ih.code hlayout hends
  | group o inner w rest ihi ih =>
    intro g r t c p q a z run left d h ht
    obtain ⟨b, ho, -⟩ := h.fitsRest.1
    cases hround : b.isRound with
    | false => exact ih.bracket ho hround h ht
    | true => exact ihi.round ih ho hround h ht

end Grouping

end CodeGroom
