import CodeGroom.Proofs.Grouping.Gaps
import CodeGroom.Proofs.Grouping.Visits
import Mathlib.Logic.Relation

/-!
# What a run makes of any strand

Whether brackets match or not, a run inserts one pair after another and does nothing else: each opening parenthesis directly in
front of code, each closing one directly behind code outside directives. A scan may leave its region, but it goes forward only, so
there is code on both sides of where it encloses something.
-/

namespace CodeGroom

/-- The kinds that lexemes of a directive can have: what a directive is read into, and parentheses put in front of it. -/
def Kind.standsInDirective : Kind → Bool
  | .directive | .newline | .opening .paren => true
  | _ => false

namespace Entry

/-- The second listing holds the entries of the first one in their order, as far as a scan looks at them. -/
structure Holds (es es' : List Entry) : Prop where
  sublist : (Entry.names es).Sublist (Entry.names es')
  same : ∀ e ∈ es, ∃ e' ∈ es', e'.name = e.name ∧ e'.kind = e.kind ∧ e'.inDirective = e.inDirective

variable {es es' : List Entry} {n : Nat}

theorem Holds.refl (es : List Entry) : Holds es es := ⟨.refl _, fun e he => ⟨e, he, rfl, rfl, rfl⟩⟩

theorem Holds.trans {es'' : List Entry} (h : Holds es es') (h' : Holds es' es'') : Holds es es'' := by
  refine ⟨h.sublist.trans h'.sublist, ?_⟩
  intro e he
  obtain ⟨e', he', hname, hkind, hdir⟩ := h.same e he
  obtain ⟨e'', he'', hname', hkind', hdir'⟩ := h'.same e' he'
  exact ⟨e'', he'', hname'.trans hname, hkind'.trans hkind, hdir'.trans hdir⟩

/-- Shifting a line keeps the entries. -/
theorem holds_shiftLine (n : Int) (es : List Entry) : Holds es (Entry.shiftLine n es) := by
  refine ⟨Entry.names_shiftLine n es ▸ .refl _, ?_⟩
  obtain ⟨m, q, rfl, hshift, -⟩ := Entry.exists_shiftLine n es
  rw [hshift]
  intro e he
  rcases List.mem_append.1 he with he | he
  · exact ⟨_, List.mem_append_left _ (List.mem_map_of_mem he), rfl, rfl, rfl⟩
  · exact ⟨e, List.mem_append_right _ he, rfl, rfl, rfl⟩

/-- What two listings hold they hold one behind the other. -/
theorem Holds.append {p p' : List Entry} (hp : Holds p p') (h : Holds es es') : Holds (p ++ es) (p' ++ es') := by
  refine ⟨?_, ?_⟩
  · rw [Entry.names_append, Entry.names_append]
    exact hp.sublist.append h.sublist
  · intro e he
    rcases List.mem_append.1 he with he | he
    · obtain ⟨e', he', hsame⟩ := hp.same e he
      exact ⟨e', List.mem_append_left _ he', hsame⟩
    · obtain ⟨e', he', hsame⟩ := h.same e he
      exact ⟨e', List.mem_append_right _ he', hsame⟩

theorem Holds.cons (e : Entry) (h : Holds es es') : Holds es (e :: es') := by
  refine ⟨h.sublist.cons _, ?_⟩
  intro x hx
  obtain ⟨x', hx', hsame⟩ := h.same x hx
  exact ⟨x', List.mem_cons_of_mem _ hx', hsame⟩

/-- A lexeme of the listing stands in front of another one. -/
def Before (es : List Entry) (i j : Nat) : Prop := [i, j].Sublist (Entry.names es)

variable {i j k : Nat} {a x y z : Entry}

/-- What stands in front of another lexeme still does when the listing has grown. -/
theorem Before.mono (h : Before es i j) (hes : Holds es es') : Before es' i j := h.trans hes.sublist

theorem Before.mem_left (h : Before es i j) : i ∈ Entry.names es := h.subset List.mem_cons_self

theorem Before.mem_right (h : Before es i j) : j ∈ Entry.names es := h.subset (by simp)

/-- A lexeme stands in front of whatever is behind it. -/
theorem before_of_append {p q : List Entry} (hx : x ∈ q) : Before (p ++ a :: q) a.name x.name := by
  rw [Before, Entry.names_append, Entry.names_cons]
  have htail : [x.name].Sublist (Entry.names q) := List.singleton_sublist.2 (Entry.mem_names hx)
  exact (htail.cons_cons a.name).trans (List.sublist_append_right _ _)

/-- What stands between two entries, and around them. -/
theorem Before.exists_split (h : Before es a.name z.name) (hnodup : (Entry.names es).Nodup) (ha : a ∈ es) (hz : z ∈ es) :
    ∃ p m q, es = p ++ a :: (m ++ z :: q) := by
  obtain ⟨l, r, hes, hal, hzr⟩ := List.cons_sublist_iff.1 h
  obtain ⟨front, back, rfl, rfl, rfl⟩ := List.map_eq_append_iff.1 hes
  obtain ⟨a', ha', haname⟩ := List.mem_map.1 hal
  obtain ⟨z', hz', hzname⟩ := List.mem_map.1 (List.singleton_sublist.1 hzr)
  obtain rfl : a' = a := List.inj_on_of_nodup_map hnodup (List.mem_append_left _ ha') ha haname
  obtain rfl : z' = z := List.inj_on_of_nodup_map hnodup (List.mem_append_right _ hz') hz hzname
  obtain ⟨p, m, rfl⟩ := List.append_of_mem ha'
  obtain ⟨m', q, rfl⟩ := List.append_of_mem hz'
  exact ⟨p, m ++ m', q, by simp⟩

/-- What stands in front of a lexeme stands in front of what is behind that one. -/
theorem Before.trans (h : Before es i j) (h' : Before es j k) (hnodup : (Entry.names es).Nodup) : Before es i k := by
  unfold Before at h h' ⊢
  generalize Entry.names es = l at h h' hnodup
  induction l with
  | nil => cases h
  | cons x l ih =>
    obtain ⟨hx, hnodup⟩ := List.nodup_cons.1 hnodup
    rcases List.sublist_cons_iff.1 h with hij | ⟨r, hr, hj⟩
    · rcases List.sublist_cons_iff.1 h' with hjk | ⟨r', hr', -⟩
      · exact (ih hij hjk hnodup).cons x
      · obtain ⟨rfl, -⟩ := List.cons.inj hr'
        have hmem : j ∈ l := hij.subset (by simp)
        exact absurd hmem hx
    · obtain ⟨rfl, rfl⟩ := List.cons.inj hr
      rcases List.sublist_cons_iff.1 h' with hjk | ⟨r', hr', -⟩
      · have hk : k ∈ l := hjk.subset (by simp)
        exact (List.singleton_sublist.2 hk).cons_cons i
      · obtain ⟨rfl, -⟩ := List.cons.inj hr'
        exact absurd (List.singleton_sublist.1 hj) hx

/-- Whether an entry is layout depends on its kind. -/
theorem isLayout_congr {e e' : Entry} (h : e'.kind = e.kind) : e'.isLayout = e.isLayout := by
  rw [Bool.eq_iff_iff, isLayout_iff, isLayout_iff, h]

/-- The name is that of code. -/
def CodeAt (es : List Entry) (i : Nat) : Prop := ∃ e ∈ es, e.name = i ∧ e.isLayout = false

/-- The name is that of a lexeme outside directives. -/
def OutsideAt (es : List Entry) (i : Nat) : Prop := ∃ e ∈ es, e.name = i ∧ e.inDirective = false

/-- Code is still code when the listing has grown. -/
theorem CodeAt.mono (h : CodeAt es i) (hes : Holds es es') : CodeAt es' i := by
  obtain ⟨e, he, rfl, hcode⟩ := h
  obtain ⟨e', he', hname, hkind, -⟩ := hes.same e he
  exact ⟨e', he', hname, (isLayout_congr hkind).trans hcode⟩

/-- What is outside directives still is when the listing has grown. -/
theorem OutsideAt.mono (h : OutsideAt es i) (hes : Holds es es') : OutsideAt es' i := by
  obtain ⟨e, he, rfl, hdir⟩ := h
  obtain ⟨e', he', hname, -, hdir'⟩ := hes.same e he
  exact ⟨e', he', hname, hdir'.trans hdir⟩

end Entry

open Entry

namespace Strand.Shows

variable {s : Strand} {es p q : List Entry} {e : Entry} {i j : Nat}

/-- The next code behind a lexeme is the first one in the rest of the listing. -/
theorem nextCode_eq (h : s.Shows (p ++ e :: q)) : s.nextCode (some e.name) = (q.find? (!·.isLayout)).map (·.name) := by
  have hl := h.linked
  rw [Entry.names_append, Entry.names_cons] at hl
  rw [nextCode, next, ahead, restrict, hl.after_eq]
  refine Lists.find?_names ?_
  intro x hx
  rw [h.isLayout_eq (List.mem_append_right _ (List.mem_cons_of_mem _ hx))]

/-- The last code in front of a lexeme outside directives. -/
theorem prev_eq (h : s.Shows (p ++ e :: q)) (he : e.inDirective = false) :
    s.prev .layout .sameSide (some e.name) = (p.reverse.find? fun x => !x.inDirective && !x.isLayout).map (·.name) := by
  have hl := h.linked
  rw [Entry.names_append, Entry.names_cons] at hl
  have hdir : s.inDirective e.name = false := by rw [h.inDirective_eq (by simp), he]
  rw [prev, behind, hdir, restrict, hl.before_eq, List.find?_filter, Entry.names, ← List.map_reverse]
  refine Lists.find?_names ?_
  intro x hx
  have hx' : x ∈ p ++ e :: q := List.mem_append_left _ (List.mem_reverse.1 hx)
  simp only [h.inDirective_eq hx', h.isLayout_eq hx', Bool.decide_and, Bool.decide_eq_true]

/-- The next code is code further on. -/
theorem before_nextCode (h : s.Shows es) (hi : i ∈ Entry.names es)
    (hj : s.nextCode (some i) = some j) : Before es i j ∧ CodeAt es j := by
  obtain ⟨e, he, rfl⟩ := List.mem_map.1 hi
  obtain ⟨p, q, rfl⟩ := List.append_of_mem he
  rw [h.nextCode_eq] at hj
  obtain ⟨x, hx, rfl⟩ := Option.map_eq_some_iff.1 hj
  have hmem := List.mem_of_find?_eq_some hx
  exact ⟨before_of_append hmem, x, List.mem_append_right _ (List.mem_cons_of_mem _ hmem), rfl, by simpa using List.find?_some hx⟩

/-- A search for a kind finds a lexeme of that kind further on. -/
theorem before_nextOfKind {kind : Kind} {depth : Option Int} {scope : Scope} (h : s.Shows es) (hi : i ∈ Entry.names es)
    (hj : s.nextOfKind (some i) kind depth scope = some j) :
    Before es i j ∧ ∃ e ∈ es, e.name = j ∧ e.kind = kind := by
  obtain ⟨e, he, rfl⟩ := List.mem_map.1 hi
  obtain ⟨p, q, rfl⟩ := List.append_of_mem he
  have hl := h.linked
  rw [Entry.names_append, Entry.names_cons] at hl
  rw [nextOfKind] at hj
  have hmem : j ∈ Entry.names q := by
    have hahead := List.mem_of_find?_eq_some hj
    rw [ahead, hl.after_eq] at hahead
    unfold restrict at hahead
    split at hahead
    · exact hahead
    · exact (List.takeWhile_sublist _).subset hahead
    · exact (List.filter_sublist).subset hahead
  obtain ⟨x, hx, rfl⟩ := List.mem_map.1 hmem
  have hxmem : x ∈ p ++ e :: q := List.mem_append_right _ (List.mem_cons_of_mem _ hx)
  have hkind := List.find?_some hj
  simp only [h.kind_eq hxmem, Bool.and_eq_true, decide_eq_true_eq] at hkind
  exact ⟨before_of_append hx, x, hxmem, rfl, hkind.1⟩

/-- Where code stands behind a lexeme, there is only layout in front of the next code. -/
theorem exists_nextCode {a k : Entry} (h : s.Shows es) (ha : a ∈ es) (hk : k ∈ es) (hak : Before es a.name k.name)
    (hkcode : k.isLayout = false) :
    ∃ p m x q, es = p ++ a :: (m ++ x :: q) ∧ (∀ e ∈ m, e.isLayout = true) ∧ x.isLayout = false ∧
      s.nextCode (some a.name) = some x.name := by
  obtain ⟨p, m, q, rfl⟩ := hak.exists_split h.linked.nodup ha hk
  obtain ⟨x, hx⟩ : ∃ x, (m ++ k :: q).find? (!·.isLayout) = some x :=
    Option.isSome_iff_exists.1 (List.find?_isSome.2 ⟨k, by simp, by simp [hkcode]⟩)
  obtain ⟨hxcode, m', q', hsplit, hm'⟩ := List.find?_eq_some_iff_append.1 hx
  refine ⟨p, m', x, q', by rw [hsplit], by simpa using hm', by simpa using hxcode, ?_⟩
  rw [h.nextCode_eq, hx]
  rfl

/-- Where code outside directives stands in front of a lexeme outside directives, there are only directives and layout behind the
last such code. -/
theorem exists_prev {b l : Entry} (h : s.Shows es) (hb : b ∈ es) (hl : l ∈ es) (hbl : Before es b.name l.name)
    (hbcode : b.isLayout = false) (hbdir : b.inDirective = false) (hldir : l.inDirective = false) :
    ∃ p y m q, es = p ++ y :: (m ++ l :: q) ∧ y.isLayout = false ∧ y.inDirective = false ∧
      (∀ e ∈ m, e.isLayout = false → e.inDirective = true) ∧ s.prev .layout .sameSide (some l.name) = some y.name := by
  obtain ⟨p, m, q, rfl⟩ := hbl.exists_split h.linked.nodup hb hl
  obtain ⟨y, hy⟩ : ∃ y, (p ++ b :: m).reverse.find? (fun e => !e.inDirective && !e.isLayout) = some y :=
    Option.isSome_iff_exists.1 (List.find?_isSome.2 ⟨b, by simp, by simp [hbdir, hbcode]⟩)
  obtain ⟨hycode, m', p', hsplit, hm'⟩ := List.find?_eq_some_iff_append.1 hy
  have hcode : y.inDirective = false ∧ y.isLayout = false := by simpa using hycode
  have hfront : p ++ b :: m = p'.reverse ++ y :: m'.reverse := by
    rw [← List.reverse_reverse (p ++ b :: m), hsplit]
    simp
  have hshows : s.Shows ((p ++ b :: m) ++ l :: q) := by rwa [List.append_assoc, List.cons_append]
  refine ⟨p'.reverse, y, m'.reverse, q, ?_, hcode.2, hcode.1, ?_, ?_⟩
  · rw [← List.cons_append, ← List.append_assoc, hfront, List.append_assoc, List.cons_append]
  · intro e he hecode
    have hskipped := hm' e (List.mem_reverse.1 he)
    simpa [hecode] using hskipped
  · rw [hshows.prev_eq hldir, hy]
    rfl

end Strand.Shows

namespace Grouping

/-- One pair was inserted: the opening parenthesis in front of code, the closing one behind code outside directives. -/
inductive Paired (n : Nat) : List Entry → List Entry → Prop where
  | intro {p q p' q' : List Entry} {x y : Entry} :
      x.isLayout = false → p ++ ⟨n, openingBefore x.lexeme⟩ :: Entry.shiftLine 1 (x :: q) = p' ++ y :: q' →
      y.isLayout = false → y.inDirective = false →
      Paired n (p ++ x :: q) (p' ++ y :: ⟨n + 1, closingAfter y.lexeme⟩ :: Entry.shiftLine 1 q')

/-- A pair was put in front of one lexeme of a strand and behind another one. -/
inductive Encloses (s : Strand) : Strand → Prop where
  | intro {x y : Nat} {last : Option Nat} :
      s.WellLinked → x ∈ s.order → (openAt s (some x)).prev .layout .sameSide last = some y → y ∈ (openAt s (some x)).order →
      Encloses s (enclosedAt s (some x) last)

/-- Pairs were put into a strand one after another. -/
abbrev Enclosings : Strand → Strand → Prop := Relation.ReflTransGen Encloses

/-- Pairs were inserted one after another into a listing. Their names are those that come next. -/
inductive Grown (es₀ : List Entry) : List Entry → List Insertion → Prop where
  | start : Grown es₀ es₀ []
  | pair {es es' : List Entry} {ps : List Insertion} (region : Region) :
      Grown es₀ es ps → Paired es.length es es' → Grown es₀ es' (⟨es.length, es.length + 1, region⟩ :: ps)

variable {es₀ es es' : List Entry} {g : Grouping} {a b k l x y : Entry} {n : Nat}

/-- A listing with one more pair holds what there was. -/
theorem Paired.holds (h : Paired n es es') : Holds es es' := by
  obtain @⟨p, q, p', q', x, y, -, hsplit, -, -⟩ := h
  have hopened := (holds_shiftLine 1 (x :: q)).cons ⟨n, openingBefore x.lexeme⟩
  refine (Holds.append (.refl p) hopened).trans ?_
  rw [hsplit]
  have hbehind : Holds (y :: q') (y :: ⟨n + 1, closingAfter y.lexeme⟩ :: Entry.shiftLine 1 q') :=
    Holds.append (.refl [y]) ((holds_shiftLine 1 q').cons _)
  exact Holds.append (.refl p') hbehind

/-- The lexemes of directives are of the kinds that they can have there. -/
def Orderly (es : List Entry) : Prop := ∀ e ∈ es, e.inDirective = true → e.kind.standsInDirective = true

theorem Orderly.shiftLine (h : Orderly es) (n : Int) : Orderly (Entry.shiftLine n es) := by
  obtain ⟨m, q, rfl, hshift, -⟩ := Entry.exists_shiftLine n es
  rw [hshift]
  intro e he
  rcases List.mem_append.1 he with he | he
  · obtain ⟨u, hu, rfl⟩ := List.mem_map.1 he
    exact h u (List.mem_append_left _ hu)
  · exact h e (List.mem_append_right _ he)

/-- A pair is put into no directive where it does not belong. -/
theorem Paired.orderly {n : Nat} (h : Paired n es es') (hes : Orderly es) : Orderly es' := by
  obtain @⟨p, q, p', q', x, y, -, hsplit, -, hy⟩ := h
  have hopened : Orderly (p ++ ⟨n, openingBefore x.lexeme⟩ :: Entry.shiftLine 1 (x :: q)) := by
    have hrest : Orderly (x :: q) := fun e he => hes e (List.mem_append_right _ he)
    intro e he
    rcases List.mem_append.1 he with he | he
    · exact hes e (List.mem_append_left _ he)
    · rcases List.mem_cons.1 he with rfl | he
      · exact fun _ => rfl
      · exact hrest.shiftLine 1 e he
  rw [hsplit] at hopened
  have hrest : Orderly q' := fun e he => hopened e (by simp [he])
  intro e he
  simp only [List.mem_append, List.mem_cons] at he
  rcases he with he | rfl | rfl | he
  · exact hopened e (by simp [he])
  · exact hopened e (by simp)
  · intro hdir
    have hclosing : y.inDirective = true := hdir
    rw [hy] at hclosing
    cases hclosing
  · exact hrest.shiftLine 1 e he

/-- A pair that was inserted behind a lexeme and in front of another one, as cards show it. -/
theorem wrapped_cards {p m q p' m' q' : List Entry} (ha : a.isLayout = false) (hm : ∀ e ∈ m, e.isLayout = true)
    (hx : x.isLayout = false)
    (hsplit : (p ++ a :: m) ++ ⟨n, openingBefore x.lexeme⟩ :: Entry.shiftLine 1 (x :: q) = p' ++ y :: (m' ++ l :: q'))
    (hy : y.isLayout = false) (hydir : y.inDirective = false) (hm' : ∀ e ∈ m', e.isLayout = false → e.inDirective = true)
    (hl : l.isLayout = false) :
    Card.Wrapped n a.card l.card (cards ((p ++ a :: m) ++ x :: q))
      (cards (p' ++ y :: ⟨n + 1, closingAfter y.lexeme⟩ :: Entry.shiftLine 1 (m' ++ l :: q'))) := by
  have hopening : (⟨n, openingBefore x.lexeme⟩ : Entry).isLayout = false := rfl
  have hclosing : (⟨n + 1, closingAfter y.lexeme⟩ : Entry).isLayout = false := rfl
  have hfront : cards ((p ++ a :: m) ++ x :: q) = cards p ++ a.card :: x.card :: cards q := by
    simp [ha, hx, cards_eq_nil hm]
  have hback : cards (p' ++ y :: ⟨n + 1, closingAfter y.lexeme⟩ :: Entry.shiftLine 1 (m' ++ l :: q')) =
      cards p' ++ y.card :: (⟨n + 1, closingAfter y.lexeme⟩ : Entry).card :: (cards m' ++ l.card :: cards q') := by
    simp only [cards_append, cards_code _ hy, cards_code _ hclosing, cards_shiftLine, cards_code _ hl]
  have hcards := congrArg cards hsplit
  simp only [cards_append, cards_code _ ha, cards_eq_nil hm, cards_code _ hopening, cards_shiftLine, cards_code _ hx,
    cards_code _ hy, cards_code _ hl, List.append_assoc, List.cons_append, List.nil_append] at hcards
  rw [hfront, hback]
  refine .intro (o := (⟨n, openingBefore x.lexeme⟩ : Entry).card) rfl rfl rfl rfl rfl hydir hydir hcards ?_
  cases hrest : cards m' with
  | nil => simp
  | cons u rest =>
    obtain ⟨e, he, hcode, rfl⟩ := mem_cards (hrest ▸ List.mem_cons_self : u ∈ cards m')
    simp [card, hm' e he hcode]

/-- Enclosing what stands between two lexemes inserts a pair, if there is code behind the first one and code outside directives in
front of the second one. -/
theorem exists_paired (top : Region) (h : g.strand.Shows es) (ha : a ∈ es) (hk : k ∈ es) (hb : b ∈ es) (hl : l ∈ es)
    (hacode : a.isLayout = false) (hak : Before es a.name k.name) (hkcode : k.isLayout = false)
    (hbl : Before es b.name l.name) (hbcode : b.isLayout = false) (hbdir : b.inDirective = false) (hlcode : l.isLayout = false)
    (hldir : l.inDirective = false) (hne : g.strand.nextCode (some a.name) ≠ some l.name) :
    ∃ es', (g.enclose top (some a.name) (some l.name)).strand.Shows es' ∧ Paired es.length es es' ∧
      (g.enclose top (some a.name) (some l.name)).pairs = ⟨es.length, es.length + 1, top⟩ :: g.pairs ∧
      Encloses g.strand (g.enclose top (some a.name) (some l.name)).strand ∧
      Card.Wrapped es.length a.card l.card (cards es) (cards es') := by
  -- The first code behind the one lexeme is what the opening parenthesis is put in front of.
  obtain ⟨p, m, x, q, rfl, hm, hxcode, hinner⟩ := h.exists_nextCode ha hk hak hkcode
  have hsplit : p ++ a :: (m ++ x :: q) = (p ++ a :: m) ++ x :: q := by simp
  rw [hsplit] at h ha hb hl hbl ⊢
  have hopened := h.openAt
  obtain ⟨t, ht⟩ : ∃ t, t = openAt g.strand (some x.name) := ⟨_, rfl⟩
  rw [← ht] at hopened
  have hholds : Holds ((p ++ a :: m) ++ x :: q)
      ((p ++ a :: m) ++ ⟨g.strand.size, openingBefore x.lexeme⟩ :: Entry.shiftLine 1 (x :: q)) :=
    .append (.refl _) (.cons _ (holds_shiftLine 1 (x :: q)))
  generalize hmid : (p ++ a :: m) ++ ⟨g.strand.size, openingBefore x.lexeme⟩ :: Entry.shiftLine 1 (x :: q) = mid
    at hopened hholds
  -- The last code in front of the other lexeme is what the closing parenthesis is put behind.
  obtain ⟨b', hb', hbname, hbkind, hbdir'⟩ := hholds.same b hb
  obtain ⟨l', hl', hlname, hlkind, hldir'⟩ := hholds.same l hl
  have hbl' : Before mid b'.name l'.name := by
    rw [hbname, hlname]
    exact hbl.mono hholds
  have hb'code : b'.isLayout = false := by rw [isLayout_congr hbkind, hbcode]
  have hl'code : l'.isLayout = false := by rw [isLayout_congr hlkind, hlcode]
  obtain ⟨p', y, m', q', rfl, hycode, hydir, hm', hlast⟩ :=
    hopened.exists_prev hb' hl' hbl' hb'code (hbdir'.trans hbdir) (hldir'.trans hldir)
  rw [hlname] at hlast
  have hlength := h.length_eq
  have hsize : t.size = g.strand.size + 1 := by
    rw [ht]
    simp [openAt, Strand.shiftLine, size_modifyAll, Strand.insertBefore]
  refine ⟨p' ++ y :: ⟨t.size, closingAfter y.lexeme⟩ :: Entry.shiftLine 1 (m' ++ l' :: q'), ?_, ?_, ?_, ?_, ?_⟩
  · rw [strand_enclose hne, hinner, enclosedAt, ← ht, hlast]
    exact hopened.closeAt.modifyAll_of_flat (f := deepen) (fun _ => rfl) _
  · rw [hlength, hsize]
    exact .intro hxcode hmid hycode hydir
  · rw [pairs_enclose hne, hinner, ← ht, hsize, hlength]
  · rw [strand_enclose hne, hinner]
    refine .intro h.linked.wellLinked ?_ (ht ▸ hlast) ?_
    · rw [h.order_eq]
      simp
    · rw [← ht, hopened.order_eq]
      simp
  · have hlcard : l'.card = l.card := by rw [card, card, hlname, hlkind, hldir']
    rw [hlength, hsize, ← hlcard]
    exact wrapped_cards hacode hm hxcode hmid hycode hydir hm' hl'code

end Grouping

end CodeGroom
