import CodeGroom.Proofs.Grouping.Growth

/-!
# Scans go forward and come to their ends

A scan may leave its region when brackets do not match, but it never goes back. What it encloses has code outside directives in
front of it, the start of the region that was found at the top, and so it only ever inserts pairs. With each step it comes nearer
to the end of the strand, in the sense in which its countdown outlasts it, and so it comes to its own end.
-/

namespace CodeGroom

namespace Entry

variable {es p q m : List Entry} {e w : Entry} {s : Strand} {n : Nat} {at? : Option Nat}

/-- A listing without its layout from a lexeme on. -/
def cardsFrom (es : List Entry) : Option Nat → List Card
  | none => []
  | some i => (cards es).dropWhile (·.name ≠ i)

/-- How far it is from a lexeme on, when the names from `n` on are new. -/
def wayFrom (n : Nat) (es : List Entry) (at? : Option Nat) : Distance := Card.distance n (cardsFrom es at?)

/-- No part of the way is longer than the strand. -/
theorem wayFrom_within (h : s.Shows es) : (wayFrom n es at?).Within s.size := by
  refine Card.distance_within n ?_
  rw [← h.length_eq]
  refine Nat.le_trans ?_ (length_cards_le es)
  cases at? with
  | none => exact Nat.zero_le _
  | some i => exact (List.dropWhile_sublist _).length_le

/-- From a lexeme on there is that lexeme and what is behind it. -/
theorem cardsFrom_split (hnodup : (names (p ++ e :: q)).Nodup) (he : e.isLayout = false) :
    cardsFrom (p ++ e :: q) (some e.name) = e.card :: cards q := by
  have hcards := nodup_cards hnodup
  rw [cards_append, cards_code q he, List.map_append, List.map_cons] at hcards
  have hfront : ∀ x ∈ cards p, decide (x.name ≠ e.name) = true := by
    intro x hx
    refine decide_eq_true fun heq => ?_
    exact (List.nodup_append.1 hcards).2.2 x.name (List.mem_map_of_mem hx) e.card.name List.mem_cons_self heq
  rw [cardsFrom, cards_append, cards_code q he, List.dropWhile_append_of_pos hfront, List.dropWhile_cons_of_neg]
  simp [card]

/-- From the next code on there is what is behind the lexeme. -/
theorem cardsFrom_nextCode (h : s.Shows (p ++ e :: q)) : cardsFrom (p ++ e :: q) (s.nextCode (some e.name)) = cards q := by
  rw [h.nextCode_eq]
  cases hfind : q.find? (!·.isLayout) with
  | none =>
    have hlayout : ∀ x ∈ q, x.isLayout = true := by simpa using List.find?_eq_none.1 hfind
    rw [cards_eq_nil hlayout]
    rfl
  | some x =>
    obtain ⟨hcode, u, v, rfl, hu⟩ := List.find?_eq_some_iff_append.1 hfind
    have hxcode : x.isLayout = false := by simpa using hcode
    have hulayout : ∀ y ∈ u, y.isLayout = true := by simpa using hu
    have hsplit : p ++ e :: (u ++ x :: v) = (p ++ e :: u) ++ x :: v := by simp
    have hnodup := h.linked.nodup
    rw [hsplit] at hnodup
    rw [Option.map_some, hsplit, cardsFrom_split hnodup hxcode, cards_append, cards_eq_nil hulayout, cards_code v hxcode,
      List.nil_append]

/-- Behind a lexeme the way is shorter than from there on. -/
theorem wayFrom_nextCode (n : Nat) (h : s.Shows (p ++ e :: q)) (he : e.isLayout = false) :
    (wayFrom n (p ++ e :: q) (s.nextCode (some e.name))).Less (wayFrom n (p ++ e :: q) (some e.name)) := by
  rw [wayFrom, wayFrom, cardsFrom_nextCode h, cardsFrom_split h.linked.nodup he]
  exact Card.distance_tail n _ _

/-- Behind a lexeme further on it is shorter as well. -/
theorem wayFrom_nextCode_of_before (n : Nat) (h : s.Shows (p ++ e :: (m ++ w :: q))) (he : e.isLayout = false)
    (hw : w.isLayout = false) :
    (wayFrom n (p ++ e :: (m ++ w :: q)) (s.nextCode (some w.name))).Less (wayFrom n (p ++ e :: (m ++ w :: q)) (some e.name)) := by
  have hback : cardsFrom (p ++ e :: (m ++ w :: q)) (s.nextCode (some w.name)) = cards q := by
    have hsplit : p ++ e :: (m ++ w :: q) = (p ++ e :: m) ++ w :: q := by simp
    rw [hsplit] at h ⊢
    exact cardsFrom_nextCode h
  rw [wayFrom, wayFrom, hback, cardsFrom_split h.linked.nodup he, cards_append, cards_code q hw, List.append_cons]
  exact Card.distance_append n _ _ _

end Entry

namespace Grouping

open Entry

/-! ## What stays of a listing -/

/-- A listing grew into another one by lexemes that are new, when the names from `n` on are. -/
structure Enlarged (n : Nat) (es es' : List Entry) : Prop where
  holds : Holds es es'
  grows : Card.Grows n (cards es) (cards es')

/-- The lexeme is code that a run may start behind: an old one, or an opening parenthesis. -/
def AnchorAt (n : Nat) (es : List Entry) (i : Nat) : Prop :=
  ∃ e ∈ es, e.name = i ∧ e.isLayout = false ∧ (e.name < n ∨ e.kind = .opening .paren)

/-- The lexeme is code outside directives that a run may end in front of: any but an opening bracket. -/
def BoundAt (es : List Entry) (i : Nat) : Prop :=
  ∃ e ∈ es, e.name = i ∧ e.isLayout = false ∧ e.inDirective = false ∧ ∀ b, e.kind ≠ .opening b

variable {s₀ : Strand} {es es' es'' : List Entry} {g g' : Grouping} {top r : Region} {i j b f n m : Nat} {c : Cursor}

theorem Enlarged.refl (es : List Entry) : Enlarged n es es := ⟨.refl es, .refl _⟩

theorem Enlarged.trans (h : Enlarged n es es') (h' : Enlarged n es' es'') : Enlarged n es es'' :=
  ⟨h.holds.trans h'.holds, h.grows.trans h'.grows⟩

/-- A run may still start behind a lexeme when the listing has grown. -/
theorem AnchorAt.mono (h : AnchorAt n es i) (hes : Holds es es') : AnchorAt n es' i := by
  obtain ⟨e, he, rfl, hcode, hkind⟩ := h
  obtain ⟨e', he', hname', hkind', -⟩ := hes.same e he
  exact ⟨e', he', hname', (isLayout_congr hkind').trans hcode, hname' ▸ hkind' ▸ hkind⟩

/-- A run may still end in front of a lexeme when the listing has grown. -/
theorem BoundAt.mono (h : BoundAt es i) (hes : Holds es es') : BoundAt es' i := by
  obtain ⟨e, he, rfl, hcode, hdir, hkind⟩ := h
  obtain ⟨e', he', hname', hkind', hdir'⟩ := hes.same e he
  exact ⟨e', he', hname', (isLayout_congr hkind').trans hcode, hdir'.trans hdir, hkind' ▸ hkind⟩

theorem AnchorAt.codeAt (h : AnchorAt n es i) : CodeAt es i := by
  obtain ⟨e, he, hname, hcode, -⟩ := h
  exact ⟨e, he, hname, hcode⟩

theorem BoundAt.codeAt (h : BoundAt es i) : CodeAt es i := by
  obtain ⟨e, he, hname, hcode, -⟩ := h
  exact ⟨e, he, hname, hcode⟩

/-- The grouping shows a listing that pairs were inserted into, and its strand is the one at the start with these pairs. -/
structure Showing (s₀ : Strand) (g : Grouping) (es : List Entry) : Prop where
  shows : g.strand.Shows es
  grown : Grown s₀.rows es g.pairs
  orderly : Orderly es
  enclosings : Enclosings s₀ g.strand

/-- What shows a listing is the strand with its pairs. -/
theorem Showing.congr (h : Showing s₀ g es) (hstrand : g'.strand = g.strand) (hpairs : g'.pairs = g.pairs) : Showing s₀ g' es :=
  ⟨hstrand ▸ h.shows, hpairs ▸ h.grown, h.orderly, hstrand ▸ h.enclosings⟩

/-- A strand and its pairs show some such listing, whatever was scanned. -/
def Shown (s₀ : Strand) (_ : List (Strand × Region)) (s : Strand) (ps : List Insertion) : Prop := ∃ es, Showing s₀ ⟨s, ps, []⟩ es

/-- A grouping shows such a listing if its strand and its pairs do. -/
theorem shown_iff {made : List (Strand × Region)} : Shown s₀ made g.strand g.pairs ↔ ∃ es, Showing s₀ g es := by
  constructor <;> rintro ⟨es, h⟩ <;> exact ⟨es, h.congr rfl rfl⟩

theorem Shown.wellLinked {made : List (Strand × Region)} {s : Strand} {ps : List Insertion} (h : Shown s₀ made s ps) :
    s.WellLinked := by
  obtain ⟨es, hes⟩ := h
  exact hes.shows.linked.wellLinked

/-- The grouping shows such a listing in a scan that started with `n` lexemes: the parentheses of the scan stand tidily. -/
structure Underway (s₀ : Strand) (n : Nat) (g : Grouping) (es : List Entry) : Prop extends Showing s₀ g es where
  tidy : Card.Tidy n (cards es)
  start_le : n ≤ es.length

/-- The grouping shows a listing that an earlier one has grown into. -/
def Advanced (s₀ : Strand) (n : Nat) (es : List Entry) (g : Grouping) : Prop := ∃ es', Underway s₀ n g es' ∧ Enlarged n es es'

theorem Underway.advanced (h : Underway s₀ n g es) : Advanced s₀ n es g := ⟨es, h, .refl es⟩

/-- Reporting changes none of this. -/
theorem Underway.note (h : Underway s₀ n g es) (e : Event) : Underway s₀ n (g.note e) es :=
  ⟨h.toShowing.congr rfl rfl, h.tidy, h.start_le⟩

/-- What has grown from a listing that has grown has grown from the first one. -/
theorem Advanced.of_enlarged (h : Advanced s₀ n es' g) (hes : Enlarged n es es') : Advanced s₀ n es g := by
  obtain ⟨es'', h'', hes'⟩ := h
  exact ⟨es'', h'', hes.trans hes'⟩

/-- When a scan starts nothing is new. -/
theorem Showing.underway (h : Showing s₀ g es) : Underway s₀ es.length g es where
  toShowing := h
  tidy := by
    refine Card.tidy_of_lt fun x hx => ?_
    obtain ⟨e, he, -, rfl⟩ := mem_cards hx
    exact h.shows.length_eq ▸ h.shows.name_lt he
  start_le := Nat.le_refl _

/-- A lexeme of a kind that directives do not have stands outside of them. -/
theorem Showing.outside (h : Showing s₀ g es) {e : Entry} (he : e ∈ es) (hk : e.kind.standsInDirective = false) :
    e.inDirective = false := by
  cases hdir : e.inDirective with
  | false => rfl
  | true =>
    rw [h.orderly e he hdir] at hk
    cases hk

/-- What is no parenthesis was there when the scan started. -/
theorem Underway.old (h : Underway s₀ n g es) {e : Entry} (he : e ∈ es) (hcode : e.isLayout = false)
    (hopening : e.kind ≠ .opening .paren) (hclosing : e.kind ≠ .closing .paren) : e.name < n := by
  rcases Nat.lt_or_ge e.name n with hold | hnew
  · exact hold
  · rcases h.tidy.paren e.card (card_mem_cards he hcode) hnew with hkind | ⟨hkind, -⟩
    · exact absurd hkind hopening
    · exact absurd hkind hclosing

/-- Enclosing what stands between two lexemes, when there is code to put the parentheses beside. -/
theorem Underway.enclose (h : Underway s₀ n g es) (top : Region) {k l : Nat} (hf : AnchorAt n es f) (hfk : Before es f k)
    (hk : CodeAt es k) (hb : CodeAt es b) (hbdir : OutsideAt es b) (hbl : Before es b l) (hl : BoundAt es l) :
    Advanced s₀ n es (g.enclose top (some f) (some l)) := by
  by_cases hne : g.strand.nextCode (some f) = some l
  · have hsame : g.enclose top (some f) (some l) = g := by rw [Grouping.enclose, if_pos hne]
    rw [hsame]
    exact h.advanced
  · obtain ⟨a, ha, rfl, hacode, hakind⟩ := hf
    obtain ⟨x, hx, rfl, hxcode⟩ := hk
    obtain ⟨y, hy, rfl, hycode⟩ := hb
    obtain ⟨y', hy', hname, hydir⟩ := hbdir
    obtain rfl : y' = y := List.inj_on_of_nodup_map h.shows.linked.nodup hy' hy hname
    obtain ⟨z, hz, rfl, hzcode, hzdir, hzkind⟩ := hl
    obtain ⟨es', hshows, hpaired, hpairs, hencloses, hwrapped⟩ :=
      exists_paired top h.shows ha hx hy hz hacode hfk hxcode hbl hycode hydir hzcode hzdir hne
    have hzopens : z.card.opens n = false := by
      rw [← Bool.not_eq_true, Card.opens_iff]
      rintro ⟨-, hkind, -⟩
      exact hzkind _ hkind
    have hgrown : Showing s₀ (g.enclose top (some a.name) (some z.name)) es' :=
      ⟨hshows, hpairs ▸ .pair top h.grown hpaired, hpaired.orderly h.orderly, h.enclosings.tail hencloses⟩
    refine ⟨es', ⟨hgrown, hwrapped.tidy h.start_le h.tidy hakind hzopens, ?_⟩, hpaired.holds, hwrapped.grows h.start_le⟩
    have hlength := hpaired.holds.sublist.length_le
    rw [Entry.names, Entry.names, List.length_map, List.length_map] at hlength
    exact h.start_le.trans hlength

/-! ## A step of a scan -/

/-- A scan is at a cursor in a region. All that it may enclose stands behind the lexeme `b`, which is code outside directives, and
when a comparison was met there is code behind the start of the run. -/
structure ScanIn (n : Nat) (es : List Entry) (b : Nat) (r : Region) (c : Cursor) : Prop where
  baseCode : CodeAt es b
  baseOutside : OutsideAt es b
  last : ∃ l, r.last = some l ∧ Before es b l ∧ BoundAt es l
  ref : ∃ f, c.ref = some f ∧ AnchorAt n es f ∧ (∀ i, c.at? = some i → Before es f i) ∧
    (c.compared = true → ∃ k, Before es f k ∧ CodeAt es k)
  ahead : ∀ i, c.at? = some i → Before es b i ∧ CodeAt es i

/-- What a step makes of a scan: it ends with a listing that has grown, or it goes on nearer to its end, where a nested scan, whatever
that does, makes it no longer. -/
inductive Steady (s₀ : Strand) (n : Nat) (es : List Entry) (b : Nat) (r : Region) (c : Cursor) : Progress → Prop where
  | done {g : Grouping} : Advanced s₀ n es g → Steady s₀ n es b r c (.done g)
  | onward {es' : List Entry} {c' : Cursor} {g : Grouping} :
      Underway s₀ n g es' → Enlarged n es es' → ScanIn n es' b r c' → (wayFrom n es' c'.at?).Less (wayFrom n es c.at?) →
      Steady s₀ n es b r c (.onward c' g)
  | inward {inner : Region} {i : Nat} {g : Grouping} :
      Underway s₀ n g es → ScanIn n es b inner (inner.start g.strand) →
      (wayFrom n es (inner.start g.strand).at?).Less (wayFrom n es c.at?) →
      (∀ {es' : List Entry} {g' : Grouping}, Underway s₀ n g' es' → Enlarged n es es' →
        ScanIn n es' b r { c with at? := g'.strand.nextCode (some i) } ∧
          (wayFrom n es' (g'.strand.nextCode (some i))).Less (wayFrom n es c.at?)) →
      Steady s₀ n es b r c (.inward inner i g)

/-- A scan stays where it is when the listing grows. -/
theorem ScanIn.mono (h : ScanIn n es b r c) (hes : Holds es es') : ScanIn n es' b r c := by
  obtain ⟨l, hlast, hbl, hl⟩ := h.last
  obtain ⟨f, href, hf, hat, hcompared⟩ := h.ref
  refine ⟨h.baseCode.mono hes, h.baseOutside.mono hes, ⟨l, hlast, hbl.mono hes, hl.mono hes⟩,
    ⟨f, href, hf.mono hes, fun i hi => (hat i hi).mono hes, ?_⟩, ?_⟩
  · intro hc
    obtain ⟨k, hfk, hk⟩ := hcompared hc
    exact ⟨k, hfk.mono hes, hk.mono hes⟩
  · intro i hi
    obtain ⟨hbi, hcode⟩ := h.ahead i hi
    exact ⟨hbi.mono hes, hcode.mono hes⟩

/-- The end of a region inserts at most a pair. -/
theorem ScanIn.finishRegion (h : Underway s₀ n g es) (hc : ScanIn n es b r c) (top : Region) :
    Advanced s₀ n es (g.finishRegion top r c) := by
  obtain ⟨l, hlast, hbl, hl⟩ := hc.last
  obtain ⟨f, href, hf, -, hcompared⟩ := hc.ref
  unfold Grouping.finishRegion
  split_ifs with hends
  · simp only [Bool.and_eq_true] at hends
    obtain ⟨k, hfk, hk⟩ := hcompared hends.1
    rw [href, hlast]
    exact h.enclose top hf hfk hk hc.baseCode hc.baseOutside hbl hl
  · exact h.advanced

/-- A scan that goes on behind a lexeme, in a run that starts there or further back. -/
theorem ScanIn.goOn {s : Strand} {compared : Bool} (h : ScanIn n es b r c) (hs : s.Shows es) (hi : Before es b i)
    (hf : AnchorAt n es f) (hfi : f = i ∨ Before es f i) (hcompared : compared = true → ∃ k, Before es f k ∧ CodeAt es k) :
    ScanIn n es b r ⟨some f, compared, s.nextCode (some i)⟩ where
  baseCode := h.baseCode
  baseOutside := h.baseOutside
  last := h.last
  ref := by
    refine ⟨f, rfl, hf, ?_, hcompared⟩
    intro j hj
    obtain ⟨hij, -⟩ := hs.before_nextCode hi.mem_right hj
    rcases hfi with rfl | hfi
    · exact hij
    · exact hfi.trans hij hs.linked.nodup
  ahead := by
    intro j hj
    obtain ⟨hij, hcode⟩ := hs.before_nextCode hi.mem_right hj
    exact ⟨hi.trans hij hs.linked.nodup, hcode⟩

/-- A scan of a round bracket starts behind it. -/
theorem ScanIn.enter {s : Strand} {k : Nat} (h : ScanIn n es b r c) (hs : s.Shows es) (hi : Before es b i) (hanchor : AnchorAt n es i)
    (hik : Before es i k) (hk : BoundAt es k) (nest : Nat) :
    ScanIn n es b ⟨some i, some k, nest⟩ ⟨some i, false, s.nextCode (some i)⟩ := by
  have hgo : ScanIn n es b r ⟨some i, false, s.nextCode (some i)⟩ := h.goOn hs hi hanchor (.inl rfl) fun hc => by cases hc
  exact ⟨hgo.baseCode, hgo.baseOutside, ⟨k, rfl, hi.trans hik hs.linked.nodup, hk⟩, hgo.ref, hgo.ahead⟩

section Looks

variable {ref : Option Nat} {compared : Bool} {bracket : Bracket}

/-- A scan ends where the strand does. -/
theorem look_end (h : c.at? = none) : look top r c g = .done (g.finishRegion top r c) := by
  simp [Grouping.look, h]

/-- A round bracket without a partner is passed over alone. -/
theorem look_unmatchedRound (hi : some i ≠ r.last) (hk : (g.strand.lexeme (some i)).kind = .opening bracket)
    (hround : bracket.isRound = true) (hnone : g.strand.partner (some i) = none) :
    look top r ⟨ref, compared, some i⟩ g = .onward ⟨ref, compared, g.strand.nextCode (some i)⟩ g := by
  simp [Grouping.look, hi, hk, hround, hnone, Kind.endsRun]

/-- Any other bracket without a partner ends the scan. -/
theorem look_unmatchedBracket (hi : some i ≠ r.last) (hat : c.at? = some i)
    (hk : (g.strand.lexeme (some i)).kind = .opening bracket) (hround : bracket.isRound = false)
    (hnone : g.strand.partner (some i) = none) : look top r c g = .done (g.finishRegion top r c) := by
  simp [Grouping.look, hi, hat, hk, hround, hnone, Kind.endsRun]

/-- A round bracket with a directive in it is passed over as a whole. -/
theorem exists_look_blocked (top : Region) (ref : Option Nat) (compared : Bool) {k d : Nat} (hi : some i ≠ r.last)
    (hk : (g.strand.lexeme (some i)).kind = .opening bracket) (hround : bracket.isRound = true)
    (hj : g.strand.partner (some i) = some k) (hdir : g.strand.directiveBetween (some i) (some k) = some d) :
    ∃ e e' : Event, look top r ⟨ref, compared, some i⟩ g =
      .onward ⟨ref, compared, g.strand.nextCode (some k)⟩ ((g.note e).note e') := by
  refine ⟨.scanStarted (r.nest + 1) (g.strand.sighting (some i)) (g.strand.sighting (some k)),
    .directiveMet (g.strand.lexeme (some d)).text (g.strand.lexeme (some d)).line, ?_⟩
  simp [Grouping.look, hi, hk, hround, hj, Kind.endsRun, announce, hdir, Grouping.note]

end Looks

theorem outside_of_endsRun {k : Kind} (h : k.endsRun = true) : k.standsInDirective = false := by
  cases k <;> first | rfl | cases h

/-- The partner of a bracket closes a bracket further on. -/
theorem before_partner (h : g.strand.Shows es) (hi : i ∈ Entry.names es) {k : Nat} (hk : g.strand.partner (some i) = some k) :
    Before es i k ∧ ∃ e ∈ es, ∃ bracket, e.name = k ∧ e.kind = .closing bracket := by
  rw [Strand.partner] at hk
  obtain ⟨kind, hcloser, hnext⟩ := Option.bind_eq_some_iff.1 hk
  obtain ⟨hik, e, he, hname, hkind⟩ := h.before_nextOfKind hi hnext
  refine ⟨hik, e, he, ?_⟩
  cases hopening : (g.strand.lexeme (some i)).kind <;> rw [hopening] at hcloser <;> cases hcloser
  exact ⟨_, hname, hkind⟩

/-! ## How far it is -/

/-- A lexeme as it is listed later on. -/
theorem Enlarged.exists_split (h : Enlarged n es es') {w : Entry} (hw : w ∈ es) (hcode : w.isLayout = false) :
    ∃ p w' q, es' = p ++ w' :: q ∧ w'.name = w.name ∧ cards es' = cards p ++ w.card :: cards q := by
  obtain ⟨w', hw', hname, hkind, hdir⟩ := h.holds.same w hw
  obtain ⟨p, q, rfl⟩ := List.append_of_mem hw'
  have hcard : w'.card = w.card := by rw [card, card, hname, hkind, hdir]
  exact ⟨p, w', q, rfl, hname, by rw [cards_append, cards_code _ ((isLayout_congr hkind).trans hcode), hcard]⟩

/-- Behind code there is less to go. -/
theorem Showing.nearer_step (h : Showing s₀ g es) (n : Nat) (hi : CodeAt es i) :
    (wayFrom n es (g.strand.nextCode (some i))).Less (wayFrom n es (some i)) := by
  obtain ⟨e, he, rfl, hcode⟩ := hi
  obtain ⟨p, q, rfl⟩ := List.append_of_mem he
  exact wayFrom_nextCode n h.shows hcode

/-- Behind code further on there is less to go. -/
theorem Showing.nearer_jump (h : Showing s₀ g es) (n : Nat) (hi : CodeAt es i) (hj : CodeAt es j) (hij : Before es i j) :
    (wayFrom n es (g.strand.nextCode (some j))).Less (wayFrom n es (some i)) := by
  obtain ⟨e, he, rfl, hcode⟩ := hi
  obtain ⟨w, hw, rfl, hwcode⟩ := hj
  obtain ⟨p, m, q, rfl⟩ := hij.exists_split h.shows.linked.nodup he hw
  exact wayFrom_nextCode_of_before n h.shows hcode hwcode

/-- Behind an old lexeme there is less to go, whatever was inserted. -/
theorem Showing.nearer_border (h : Showing s₀ g es) (h' : Showing s₀ g' es') (hes : Enlarged n es es') (hi : CodeAt es i)
    (hold : i < n) :
    (wayFrom n es' (g'.strand.nextCode (some i))).Less (wayFrom n es (some i)) := by
  obtain ⟨e, he, rfl, hcode⟩ := hi
  obtain ⟨p', e', q', rfl, hname, hcards⟩ := hes.exists_split he hcode
  obtain ⟨p, q, rfl⟩ := List.append_of_mem he
  have hnodup := nodup_cards h'.shows.linked.nodup
  have hgrows := hes.grows
  rw [hcards] at hgrows hnodup
  rw [cards_append, cards_code _ hcode] at hgrows
  rw [wayFrom, wayFrom, ← hname, cardsFrom_nextCode h'.shows, hname, cardsFrom_split h.shows.linked.nodup hcode]
  refine Card.distance_behind_old (u := []) hgrows hnodup ?_
  exact List.countP_pos_iff.2 ⟨e.card, List.mem_singleton_self _, decide_eq_true hold⟩

/-- How far it is from a lexeme on, and how far it is later behind another one further on. -/
theorem Showing.exists_ways (h : Showing s₀ g es) (h' : Showing s₀ g' es') (hes : Enlarged n es es') {e w : Entry} (he : e ∈ es)
    (hw : w ∈ es) (hew : Before es e.name w.name) (hcode : e.isLayout = false) (hwcode : w.isLayout = false) :
    ∃ (p m q : List Entry) (p' q' : List Card), es = p ++ e :: (m ++ w :: q) ∧
      cards es = cards p ++ e.card :: (cards m ++ w.card :: cards q) ∧ cards es' = p' ++ w.card :: q' ∧
      wayFrom n es (some e.name) = Card.distance n (e.card :: (cards m ++ w.card :: cards q)) ∧
      wayFrom n es' (g'.strand.nextCode (some w.name)) = Card.distance n q' := by
  obtain ⟨p', w', q', rfl, hname, hcards⟩ := hes.exists_split hw hwcode
  obtain ⟨p, m, q, rfl⟩ := hew.exists_split h.shows.linked.nodup he hw
  refine ⟨p, m, q, cards p', cards q', rfl, ?_, hcards, ?_, ?_⟩
  · rw [cards_append, cards_code _ hcode, cards_append, cards_code _ hwcode]
  · rw [wayFrom, cardsFrom_split h.shows.linked.nodup hcode, cards_append, cards_code _ hwcode]
  · rw [wayFrom, ← hname, cardsFrom_nextCode h'.shows]

/-- Behind a bracket there is less to go than from its start on, whatever was inserted. -/
theorem Underway.nearer_bracket (h : Underway s₀ n g es) (h' : Underway s₀ n g' es') (hes : Enlarged n es es') {e w : Entry}
    {bracket bracket' : Bracket} (he : e ∈ es) (hw : w ∈ es) (hew : Before es e.name w.name) (hopening : e.kind = .opening bracket)
    (hclosing : w.kind = .closing bracket') (hdir : g.strand.directiveBetween (some e.name) (some w.name) = none) :
    (wayFrom n es' (g'.strand.nextCode (some w.name))).Less (wayFrom n es (some e.name)) := by
  obtain ⟨p, m, q, p', q', rfl, hcards, hcards', hway, hway'⟩ := h.exists_ways h'.toShowing hes he hw hew
    (Forest.isLayout_of_opening hopening) (Forest.isLayout_of_closing hclosing)
  have hinner : ∀ x ∈ cards m, x.inDirective = false := by
    intro x hx
    obtain ⟨u, hu, -, rfl⟩ := mem_cards hx
    have hlinked := h.shows.linked
    simp only [Entry.names_append, Entry.names_cons] at hlinked
    rw [Strand.directiveBetween, hlinked.between_eq, List.find?_eq_none] at hdir
    have hout := hdir u.name (Entry.mem_names hu)
    rw [h.shows.inDirective_eq (by simp [hu])] at hout
    simpa [card] using hout
  rw [hway, hway']
  exact Card.distance_behind_bracket (hcards ▸ hcards' ▸ hes.grows) (hcards' ▸ nodup_cards h'.shows.linked.nodup)
    (hcards ▸ h.tidy) (hcards' ▸ h'.tidy) hopening hclosing hinner

/-! ## A whole scan -/

section Cases

variable {ref : Option Nat} {compared : Bool} {e : Entry} {bracket : Bracket}

/-- The run of a scan at a lexeme starts further back. -/
theorem ScanIn.run (hc : ScanIn n es b r ⟨some f, compared, some i⟩) :
    AnchorAt n es f ∧ Before es f i ∧ (compared = true → ∃ k, Before es f k ∧ CodeAt es k) := by
  obtain ⟨f', hf', hf, hat, hcompared⟩ := hc.ref
  obtain rfl : f = f' := Option.some.inj hf'
  exact ⟨hf, hat i rfl, hcompared⟩

/-- Where nothing is inserted the scan goes on behind the lexeme that it looked at. -/
theorem ScanIn.passOver (h : Underway s₀ n g es) (hc : ScanIn n es b r ⟨ref, compared, some i⟩) {compared' : Bool}
    (hf : AnchorAt n es f) (hfi : f = i ∨ Before es f i) (hcompared : compared' = true → ∃ k, Before es f k ∧ CodeAt es k) :
    Steady s₀ n es b r ⟨ref, compared, some i⟩ (.onward ⟨some f, compared', g.strand.nextCode (some i)⟩ g) := by
  obtain ⟨hbi, hicode⟩ := hc.ahead i rfl
  exact .onward h (.refl es) (hc.goOn h.shows hbi hf hfi hcompared) (h.nearer_step n hicode)

/-- The end of a run puts the run in parentheses or leaves it, and another one starts there. -/
theorem ScanIn.steady_border (h : Underway s₀ n g es) (hc : ScanIn n es b r ⟨some f, compared, some e.name⟩) (top : Region)
    (hlast : some e.name ≠ r.last) (he : e ∈ es) (hcode : e.isLayout = false) (hends : e.kind.endsRun = true) :
    Steady s₀ n es b r ⟨some f, compared, some e.name⟩ (look top r ⟨some f, compared, some e.name⟩ g) := by
  obtain ⟨hf, -, hcompared⟩ := hc.run
  have hkind : (g.strand.lexeme (some e.name)).kind = e.kind := h.shows.kind_eq he
  have hnot : ∀ bracket, e.kind ≠ .opening bracket ∧ e.kind ≠ .closing bracket := by
    intro bracket
    constructor <;> intro hk <;> rw [hk] at hends <;> cases hends
  have hold := h.old he hcode (hnot _).1 (hnot _).2
  have hanchor : AnchorAt n es e.name := ⟨e, he, rfl, hcode, .inl hold⟩
  cases compared with
  | false =>
    rw [look_border hlast (hkind ▸ hends)]
    exact hc.passOver h hanchor (.inl rfl) fun hc => by cases hc
  | true =>
    rw [look_borderEnclosed hlast (hkind ▸ hends)]
    obtain ⟨k, hfk, hk⟩ := hcompared rfl
    obtain ⟨hbi, hicode⟩ := hc.ahead _ rfl
    have hbound : BoundAt es e.name :=
      ⟨e, he, rfl, hcode, h.outside he (outside_of_endsRun hends), fun bracket => (hnot bracket).1⟩
    obtain ⟨es', h', hes⟩ := h.enclose top hf hfk hk hc.baseCode hc.baseOutside hbi hbound
    have hgoOn : ScanIn n es' b r ⟨some e.name, false, (g.enclose top (some f) (some e.name)).strand.nextCode (some e.name)⟩ :=
      (hc.mono hes.holds).goOn h'.shows (hbi.mono hes.holds) (hanchor.mono hes.holds) (.inl rfl) fun hc => by cases hc
    exact .onward h' hes hgoOn (h.nearer_border h'.toShowing hes hicode hold)

/-- Where a bracket is passed over as a whole the scan goes on behind it. -/
theorem ScanIn.passBracket (h : Underway s₀ n g es) (hc : ScanIn n es b r ⟨some f, compared, some i⟩) (hij : Before es i j)
    (hj : CodeAt es j) :
    Steady s₀ n es b r ⟨some f, compared, some i⟩ (.onward ⟨some f, compared, g.strand.nextCode (some j)⟩ g) := by
  obtain ⟨hbi, hicode⟩ := hc.ahead i rfl
  obtain ⟨hf, hfi, hcompared⟩ := hc.run
  have hnodup := h.shows.linked.nodup
  exact .onward h (.refl es) (hc.goOn h.shows (hbi.trans hij hnodup) hf (.inr (hfi.trans hij hnodup)) hcompared)
    (h.nearer_jump n hicode hj hij)

/-- A round bracket without a directive is scanned first. Whatever that does, behind the bracket the scan goes on nearer to its end. -/
theorem ScanIn.steady_round {w : Entry} {bracket' : Bracket} (h : Underway s₀ n g es)
    (hc : ScanIn n es b r ⟨some f, compared, some e.name⟩) (top : Region) (hlast : some e.name ≠ r.last) (he : e ∈ es) (hw : w ∈ es)
    (hopening : e.kind = .opening bracket) (hclosing : w.kind = .closing bracket') (hround : bracket.isRound = true)
    (hpartner : g.strand.partner (some e.name) = some w.name) (hew : Before es e.name w.name)
    (hdir : g.strand.directiveBetween (some e.name) (some w.name) = none) :
    Steady s₀ n es b r ⟨some f, compared, some e.name⟩ (look top r ⟨some f, compared, some e.name⟩ g) := by
  obtain ⟨hf, hfi, hcompared⟩ := hc.run
  obtain ⟨hbi, hicode⟩ := hc.ahead _ rfl
  have hnodup := h.shows.linked.nodup
  have hkind : (g.strand.lexeme (some e.name)).kind = .opening bracket := (h.shows.kind_eq he).trans hopening
  obtain ⟨event, hstep⟩ := exists_look_round top (some f) compared hlast hkind hround hpartner hdir
  have hanchor : AnchorAt n es e.name := by
    have hcode := Forest.isLayout_of_opening hopening
    refine ⟨e, he, rfl, hcode, ?_⟩
    by_cases hparen : e.kind = .opening .paren
    · exact .inr hparen
    · exact .inl (h.old he hcode hparen (by rw [hopening]; nofun))
  have hbound : BoundAt es w.name :=
    ⟨w, hw, rfl, Forest.isLayout_of_closing hclosing, h.outside hw (by rw [hclosing]; rfl), by rw [hclosing]; nofun⟩
  rw [hstep]
  refine .inward (h.note event) (hc.enter h.shows hbi hanchor hew hbound _) (h.nearer_step n hicode) ?_
  intro es' g' h' hes
  have hgoOn := (hc.mono hes.holds).goOn h'.shows ((hbi.trans hew hnodup).mono hes.holds) (hf.mono hes.holds)
    (.inr ((hfi.trans hew hnodup).mono hes.holds)) (hc.mono hes.holds).run.2.2
  exact ⟨hgoOn, h.nearer_bracket h' hes he hw hew hopening hclosing hdir⟩

/-- Each opening bracket is passed over or scanned, or it ends the scan. -/
theorem ScanIn.steady_bracket (h : Underway s₀ n g es) (hc : ScanIn n es b r ⟨some f, compared, some e.name⟩) (top : Region)
    (hlast : some e.name ≠ r.last) (he : e ∈ es) (hopening : e.kind = .opening bracket) :
    Steady s₀ n es b r ⟨some f, compared, some e.name⟩ (look top r ⟨some f, compared, some e.name⟩ g) := by
  obtain ⟨hf, hfi, hcompared⟩ := hc.run
  have hkind : (g.strand.lexeme (some e.name)).kind = .opening bracket := (h.shows.kind_eq he).trans hopening
  cases hpartner : g.strand.partner (some e.name) with
  | none =>
    cases hround : bracket.isRound with
    | true =>
      rw [look_unmatchedRound hlast hkind hround hpartner]
      exact hc.passOver h hf (.inr hfi) hcompared
    | false =>
      rw [look_unmatchedBracket hlast rfl hkind hround hpartner]
      exact .done (hc.finishRegion h top)
  | some k =>
    obtain ⟨hek, w, hw, bracket', rfl, hclosing⟩ := before_partner h.shows hfi.mem_right hpartner
    have hwcode : CodeAt es w.name := ⟨w, hw, rfl, Forest.isLayout_of_closing hclosing⟩
    cases hround : bracket.isRound with
    | false =>
      rw [look_bracket hlast hkind hround hpartner]
      exact hc.passBracket h hek hwcode
    | true =>
      cases hdir : g.strand.directiveBetween (some e.name) (some w.name) with
      | some d =>
        obtain ⟨_, _, hstep⟩ := exists_look_blocked top (some f) compared hlast hkind hround hpartner hdir
        rw [hstep]
        exact hc.passBracket ((h.note _).note _) hek hwcode
      | none => exact hc.steady_round h top hlast he hw hopening hclosing hround hpartner hek hdir

end Cases

/-- Each step of a scan inserts at most a pair and comes nearer to the end. -/
theorem ScanIn.steady (h : Underway s₀ n g es) (hc : ScanIn n es b r c) (top : Region) : Steady s₀ n es b r c (look top r c g) := by
  obtain ⟨f, href, -⟩ := hc.ref
  obtain ⟨ref, compared, at?⟩ := c
  obtain rfl : ref = some f := href
  cases at? with
  | none =>
    rw [look_end rfl]
    exact .done (hc.finishRegion h top)
  | some i =>
    obtain ⟨-, hicode⟩ := hc.ahead i rfl
    obtain ⟨hf, hfi, hcompared⟩ := hc.run
    by_cases hlast : some i = r.last
    · rw [look_stop hlast]
      exact .done (hc.finishRegion h top)
    obtain ⟨e, he, rfl, hcode⟩ := id hicode
    have hkind : (g.strand.lexeme (some e.name)).kind = e.kind := h.shows.kind_eq he
    by_cases hends : e.kind.endsRun = true
    · exact hc.steady_border h top hlast he hcode hends
    by_cases hcompare : e.kind = .compare
    · rw [look_compare hlast (hkind.trans hcompare)]
      exact hc.passOver h hf (.inr hfi) fun _ => ⟨e.name, hfi, hicode⟩
    by_cases hsemicolon : e.kind = .semicolon
    · have hold := h.old he hcode (by rw [hsemicolon]; nofun) (by rw [hsemicolon]; nofun)
      rw [look_semicolon hlast (hkind.trans hsemicolon)]
      exact hc.passOver h ⟨e, he, rfl, hcode, .inl hold⟩ (.inl rfl) fun hc => by cases hc
    by_cases hopens : ∃ bracket, e.kind = .opening bracket
    · obtain ⟨bracket, hopening⟩ := hopens
      exact hc.steady_bracket h top hlast he hopening
    · rw [look_word hlast hkind (by simpa using hends) hcompare hsemicolon fun bracket hb => hopens ⟨bracket, hb⟩]
      exact hc.passOver h hf (.inr hfi) hcompared

/-- A scan without a countdown, from a cursor on and up to its end. -/
inductive Scans (top : Region) : Region → Cursor → Grouping → Grouping → Prop where
  | done {r : Region} {c : Cursor} {g g' : Grouping} : look top r c g = .done g' → Scans top r c g g'
  | onward {r : Region} {c c' : Cursor} {g g₁ g' : Grouping} :
      look top r c g = .onward c' g₁ → Scans top r c' g₁ g' → Scans top r c g g'
  | inward {r inner : Region} {c : Cursor} {i : Nat} {g g₁ g₂ g' : Grouping} :
      look top r c g = .inward inner i g₁ → Scans top inner (inner.start g₁.strand) g₁ g₂ →
      Scans top r { c with at? := g₂.strand.nextCode (some i) } g₂ g' → Scans top r c g g'

/-- Whatever a scan meets, it inserts pairs and does nothing else. -/
theorem Scans.advanced (hscan : Scans top r c g g') (h : Underway s₀ n g es) (hc : ScanIn n es b r c) : Advanced s₀ n es g' := by
  induction hscan generalizing es with
  | @done r c g g' hlook =>
    have hstep := hc.steady h top
    rw [hlook] at hstep
    cases hstep with
    | done hdone => exact hdone
  | @onward r c c' g g₁ g' hlook _ ih =>
    have hstep := hc.steady h top
    rw [hlook] at hstep
    cases hstep with
    | onward h₁ hes hc' _ => exact (ih h₁ hc').of_enlarged hes
  | @inward r inner c i g g₁ g₂ g' hlook _ _ ihi ih =>
    have hstep := hc.steady h top
    rw [hlook] at hstep
    cases hstep with
    | inward h₁ henter _ hbehind =>
      obtain ⟨es', h', hes⟩ := ihi h₁ henter
      exact (ih h' (hbehind h' hes).1).of_enlarged hes

/-- Whatever a scan meets, it comes to its end before a countdown that outlasts its way. -/
theorem ScanIn.scans {t : Countdown} (h : Underway s₀ n g es) (hc : ScanIn n es b r c) (top : Region)
    (ht : t.Outlasts (wayFrom n es c.at?)) : Scans top r c g (scanFrom top t r c g) := by
  induction t generalizing r c g es with
  | spent => exact ht.elim
  | step rest ih =>
    -- A way that is shorter is outlasted by what is left of the countdown.
    have hmore : ∀ {es' : List Entry} {g' : Grouping} {at? : Option Nat}, Underway s₀ n g' es' →
        (wayFrom n es' at?).Less (wayFrom n es c.at?) → (rest g'.strand.size).Outlasts (wayFrom n es' at?) :=
      fun h' hless => ht _ _ (wayFrom_within h'.shows) hless
    have hstep := hc.steady h top
    cases hlook : look top r c g with
    | done g' =>
      rw [scanFrom_done hlook]
      exact .done hlook
    | onward c' g₁ =>
      rw [hlook] at hstep
      cases hstep with
      | onward h₁ _ hc' hless =>
        rw [scanFrom_onward hlook]
        exact .onward hlook (ih _ h₁ hc' (hmore h₁ hless))
    | inward inner i g₁ =>
      rw [hlook] at hstep
      cases hstep with
      | inward h₁ henter hless hbehind =>
        have hinner := ih _ h₁ henter (hmore h₁ hless)
        obtain ⟨es', h', hes⟩ := hinner.advanced h₁ henter
        obtain ⟨hc', hless'⟩ := hbehind h' hes
        rw [scanFrom_inward hlook rfl]
        exact .inward hlook hinner (ih _ h' hc' (hmore h' hless'))

/-! ## The scans of a run -/

/-- A scan of a whole region without a countdown: a region with a directive in it is left alone. -/
inductive ScansWhole (g : Grouping) (r : Region) : Grouping → Prop where
  | blocked : (g.announce r).2 = true → ScansWhole g r (g.announce r).1
  | scanned {g' : Grouping} :
      (g.announce r).2 = false → Scans r r (r.start (g.announce r).1.strand) (g.announce r).1 g' → ScansWhole g r g'

/-- The kinds of the lexemes that a region found at the top starts and ends with. -/
inductive Delimits : Kind → Kind → Prop where
  | condition : Delimits (.opening .condition) (.closing .condition)
  | assigned : Delimits .assign .semicolon
  | returned : Delimits .returnWord .semicolon

/-- A region starts with code outside directives that is no plain parenthesis. -/
theorem Delimits.starts {k k' : Kind} (h : Delimits k k') :
    k.standsInDirective = false ∧ k ≠ .comment ∧ k ≠ .closing .paren := by
  cases h <;> exact ⟨rfl, nofun, nofun⟩

/-- A region ends with code outside directives that is no opening bracket. -/
theorem Delimits.ends {k k' : Kind} (h : Delimits k k') :
    k'.standsInDirective = false ∧ k' ≠ .comment ∧ ∀ b, k' ≠ .opening b := by
  cases h <;> exact ⟨rfl, nofun, nofun⟩

/-- The conditions that are scanned are such regions. -/
theorem delimits_of_conditionEnd (h : conditionEnd? g i = some j) :
    ∃ k, Delimits (g.strand.lexeme (some i)).kind k ∧ g.endOf? i k = some j := by
  unfold conditionEnd? at h
  dsimp only at h
  split_ifs at h with hopens
  simp only [Bool.and_eq_true, decide_eq_true_eq] at hopens
  exact ⟨_, hopens.1 ▸ .condition, h⟩

/-- The values that are scanned are such regions. -/
theorem delimits_of_valueEnd {kind : Kind} (hkind : kind = .assign ∨ kind = .returnWord) (h : valueEnd? kind g i = some j) :
    ∃ k, Delimits (g.strand.lexeme (some i)).kind k ∧ g.endOf? i k = some j := by
  unfold valueEnd? at h
  split_ifs at h with hk
  refine ⟨.semicolon, ?_, h⟩
  rcases hkind with rfl | rfl
  · exact hk ▸ .assigned
  · exact hk ▸ .returned

/-- What does not stand in directives and is no comment is code. -/
theorem isLayout_of_outside {e : Entry} (h : e.kind.standsInDirective = false) (hcomment : e.kind ≠ .comment) :
    e.isLayout = false := by
  rw [← Bool.not_eq_true, isLayout_iff]
  rintro (hk | hk)
  · exact hcomment hk
  · rw [hk] at h
    cases h

/-- Where a region found at the top starts and ends. -/
theorem Showing.exists_ends {k : Kind} (h : Showing s₀ g es) (hi : i ∈ g.strand.order)
    (hk : Delimits (g.strand.lexeme (some i)).kind k) (hj : g.endOf? i k = some j) :
    ∃ e ∈ es, e.name = i ∧ Delimits e.kind k ∧ Before es i j ∧ BoundAt es j := by
  obtain ⟨e, he, rfl⟩ := h.shows.exists_entry hi
  obtain ⟨hij, z, hz, rfl, rfl⟩ := h.shows.before_nextOfKind (Entry.mem_names he) hj
  rw [h.shows.kind_eq he] at hk
  obtain ⟨hout, hcomment, hopening⟩ := hk.ends
  exact ⟨e, he, rfl, hk, hij, z, hz, rfl, isLayout_of_outside hout hcomment, h.outside hz hout, hopening⟩

/-- Reporting the start of a scan changes no strand. -/
theorem Underway.announce (h : Underway s₀ n g es) (r : Region) : Underway s₀ n (g.announce r).1 es := by
  unfold Grouping.announce
  dsimp only
  split
  · exact (h.note _).note _
  · exact h.note _

/-- A scan of a region found at the top comes to its end, and it inserts pairs and does nothing else. -/
theorem Showing.scansWhole {k : Kind} (h : Showing s₀ g es) (hi : i ∈ g.strand.order)
    (hk : Delimits (g.strand.lexeme (some i)).kind k) (hj : g.endOf? i k = some j) :
    ScansWhole g (regionFromTo i j) (g.scan (regionFromTo i j)) ∧ Advanced s₀ es.length es (g.scan (regionFromTo i j)) := by
  obtain ⟨e, he, rfl, hekind, hij, hbound⟩ := h.exists_ends hi hk hj
  obtain ⟨hout, hcomment, -⟩ := hekind.starts
  have hcode := isLayout_of_outside hout hcomment
  have hstart := h.underway.announce (regionFromTo e.name j)
  have hscan : g.scan (regionFromTo e.name j) = if (g.announce (regionFromTo e.name j)).2 then
      (g.announce (regionFromTo e.name j)).1 else
        scanFrom (regionFromTo e.name j) .full (regionFromTo e.name j)
          ((regionFromTo e.name j).start (g.announce (regionFromTo e.name j)).1.strand) (g.announce (regionFromTo e.name j)).1 := rfl
  cases hblocked : (g.announce (regionFromTo e.name j)).2 with
  | true =>
    rw [hscan, hblocked, if_pos rfl]
    exact ⟨.blocked hblocked, hstart.advanced⟩
  | false =>
    rw [hscan, hblocked, if_neg Bool.false_ne_true]
    have hahead : ∀ t, (g.announce (regionFromTo e.name j)).1.strand.nextCode (some e.name) = some t →
        Before es e.name t ∧ CodeAt es t := fun _ ht => hstart.shows.before_nextCode hij.mem_left ht
    have hat : ScanIn es.length es e.name (regionFromTo e.name j)
        ((regionFromTo e.name j).start (g.announce (regionFromTo e.name j)).1.strand) :=
      ⟨⟨e, he, rfl, hcode⟩, ⟨e, he, rfl, h.outside he hout⟩, ⟨j, rfl, hij, hbound⟩,
        ⟨e.name, rfl, ⟨e, he, rfl, hcode, .inl (h.shows.length_eq ▸ h.shows.name_lt he)⟩, fun t ht => (hahead t ht).1,
          fun hc => by cases hc⟩, hahead⟩
    have hscans := hat.scans hstart (regionFromTo e.name j) (Countdown.outlasts_full _)
    exact ⟨.scanned hblocked hscans, hscans.advanced hstart hat⟩

/-- A scan of a run keeps the strand showing such a listing. -/
theorem Shown.keptByScan {k : Kind} {made : List (Strand × Region)} (h : Shown s₀ made g.strand g.pairs) (hi : i ∈ g.strand.order)
    (hk : Delimits (g.strand.lexeme (some i)).kind k) (hj : g.endOf? i k = some j) : KeptByScan (Shown s₀) made g i j := by
  obtain ⟨es, hes⟩ := shown_iff.1 h
  obtain ⟨-, -, -, -, hij, -⟩ := hes.exists_ends hi hk hj
  obtain ⟨-, es', h', henlarged⟩ := hes.scansWhole hi hk hj
  refine ⟨shown_iff.2 ⟨es', h'.toShowing⟩, ?_⟩
  rw [h'.shows.order_eq]
  exact (hij.mono henlarged.holds).mem_right

/-- Whether brackets match or not, a run inserts pairs and does nothing else. -/
theorem exists_showing_run (st : Style) (g : Grouping) (hlinked : g.strand.WellLinked) (horderly : Orderly g.strand.rows)
    (hpairs : g.pairs = []) : ∃ es, Showing g.strand (g.run st) es := by
  have hstart : Showing g.strand g g.strand.rows := ⟨hlinked.shows, hpairs ▸ .start, horderly, .refl⟩
  refine shown_iff.1 (run_keeps (P := Shown g.strand) Shown.wellLinked ?_ ?_ (shown_iff.2 ⟨_, hstart⟩))
  · intro made g' i j h hi hend _
    obtain ⟨k, hk, hj⟩ := delimits_of_conditionEnd hend
    exact h.keptByScan hi hk hj
  · intro made kind g' i j hkind h hi hend _
    obtain ⟨k, hk, hj⟩ := delimits_of_valueEnd hkind hend
    exact h.keptByScan hi hk hj

/-- What a run leaves is what there was, grown by the pairs that it counts. -/
theorem exists_grown_run (st : Style) (g : Grouping) (hlinked : g.strand.WellLinked) (horderly : Orderly g.strand.rows)
    (hpairs : g.pairs = []) :
    ∃ es, (g.run st).strand.Shows es ∧ Grown g.strand.rows es (g.run st).pairs := by
  obtain ⟨es, hes⟩ := exists_showing_run st g hlinked horderly hpairs
  exact ⟨es, hes.shows, hes.grown⟩

end Grouping

end CodeGroom
