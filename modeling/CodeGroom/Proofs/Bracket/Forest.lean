import CodeGroom.Layout.Render
import CodeGroom.Proofs.Strand.Listing

/-!
# Matched brackets

A listing whose brackets match is a forest: entries that are no brackets, and groups of an opening bracket, a forest, and the
closing bracket of its shape. The depth of an entry is then the number of groups around it.
-/

namespace CodeGroom

/-- Whether the lexeme is a bracket. -/
def Kind.isBracket : Kind → Bool
  | opening _ | closing _ => true
  | _ => false

/-- Whether some lexemes read while the brackets `opened` are open, the innermost first, close just those: every closing bracket
closes the innermost open one of its own shape, no bracket belongs to a directive, and the depth of each lexeme is the number of
brackets that are open around it. -/
def wellBracketed : List Bracket → List Lexeme → Bool
  | opened, [] => opened.isEmpty
  | opened, x :: xs =>
    match x.kind with
    | .opening b => x.depth = opened.length && !x.inDirective && wellBracketed (b :: opened) xs
    | .closing b =>
      match opened with
      | [] => false
      | b' :: outer => b' = b && x.depth = outer.length && !x.inDirective && wellBracketed outer xs
    | _ => x.depth = opened.length && wellBracketed opened xs

/-- Entries by their brackets. -/
inductive Forest where
  | nil
  | leaf (e : Entry) (rest : Forest)
  | group (o : Entry) (inner : Forest) (c : Entry) (rest : Forest)

namespace Forest

/-- The entries of a forest in their order. -/
def flatten : Forest → List Entry
  | nil => []
  | leaf e rest => e :: rest.flatten
  | group o inner c rest => o :: (inner.flatten ++ c :: rest.flatten)

/-- One forest behind another. -/
def append : Forest → Forest → Forest
  | nil, G => G
  | leaf e rest, G => leaf e (rest.append G)
  | group o inner c rest, G => group o inner c (rest.append G)

/-- Forests one behind the other. -/
instance : Append Forest := ⟨append⟩

/-- The forest with every lexeme changed. -/
def change (f : Lexeme → Lexeme) : Forest → Forest
  | nil => nil
  | leaf e rest => leaf (e.change f) (rest.change f)
  | group o inner c rest => group (o.change f) (inner.change f) (c.change f) (rest.change f)

/-- The brackets of the forest match, none belongs to a directive, and depths count the groups from `d` on. -/
def Fits : Int → Forest → Prop
  | _, nil => True
  | d, leaf e rest => e.kind.isBracket = false ∧ e.depth = d ∧ rest.Fits d
  | d, group o inner c rest =>
    (∃ b, o.kind = .opening b ∧ c.kind = .closing b) ∧ (o.depth = d ∧ c.depth = d) ∧
      (o.inDirective = false ∧ c.inDirective = false) ∧ inner.Fits (d + 1) ∧ rest.Fits d

/-- An opening bracket, a forest one level deeper, and the closing bracket that fits. -/
structure IsGroup (o : Entry) (inner : Forest) (w : Entry) : Prop where
  kinds : ∃ b, o.kind = .opening b ∧ w.kind = .closing b
  depth : w.depth = o.depth
  fits : inner.Fits (o.depth + 1)

/-- No entry of the forest belongs to a directive. -/
def OutsideDirectives (F : Forest) : Prop := ∀ e ∈ F.flatten, e.inDirective = false

variable {F G H : Forest} {e : Entry} {d : Int}

@[simp] theorem nil_append : nil ++ G = G := rfl

@[simp] theorem leaf_append : leaf e F ++ G = leaf e (F ++ G) := rfl

@[simp] theorem group_append {o c : Entry} {inner : Forest} : group o inner c F ++ G = group o inner c (F ++ G) := rfl

/-- Nothing behind a forest changes nothing. -/
@[simp] theorem append_nil (F : Forest) : F ++ nil = F := by
  induction F with
  | nil => rfl
  | leaf e rest ih => rw [leaf_append, ih]
  | group o inner c rest _ ih => rw [group_append, ih]

/-- It does not matter which of three forests are put together first. -/
theorem append_assoc (F G H : Forest) : F ++ G ++ H = F ++ (G ++ H) := by
  induction F with
  | nil => rfl
  | leaf e rest ih => simp only [leaf_append, ih]
  | group o inner c rest _ ih => simp only [group_append, ih]

@[simp] theorem flatten_nil : nil.flatten = [] := rfl

@[simp] theorem flatten_leaf : (leaf e F).flatten = e :: F.flatten := rfl

@[simp] theorem flatten_group {o c : Entry} {inner : Forest} :
    (group o inner c F).flatten = o :: (inner.flatten ++ c :: F.flatten) := rfl

/-- Forests one behind the other list their entries so. -/
@[simp] theorem flatten_append (F G : Forest) : (F ++ G).flatten = F.flatten ++ G.flatten := by
  induction F with
  | nil => rfl
  | leaf e rest ih => simp [ih]
  | group o inner c rest _ ih => simp [ih]

/-- A change of all entries shows in the list. -/
theorem flatten_change (f : Lexeme → Lexeme) (F : Forest) : (F.change f).flatten = F.flatten.map (Entry.change f) := by
  induction F with
  | nil => rfl
  | leaf e rest ih => simp [change, ih]
  | group o inner c rest ihi ih => simp [change, ihi, ih]

@[simp] theorem fits_nil : Fits d nil := trivial

/-- Two forests fit one behind the other if both fit. -/
theorem fits_append : Fits d (F ++ G) ↔ Fits d F ∧ Fits d G := by
  induction F with
  | nil => simp
  | leaf e rest ih => simp only [leaf_append, Fits, ih, and_assoc]
  | group o inner c rest _ ih => simp only [group_append, Fits, ih, and_assoc]

/-- No entry lies further out than the forest. -/
theorem Fits.le_depth (h : Fits d F) : ∀ e ∈ F.flatten, d ≤ e.depth := by
  induction F generalizing d with
  | nil => intro e he; cases he
  | leaf x rest ih =>
    intro e he
    rcases List.mem_cons.1 he with rfl | he
    · exact Int.le_of_eq h.2.1.symm
    · exact ih h.2.2 e he
  | group o inner c rest ihi ih =>
    obtain ⟨-, ⟨ho, hc⟩, -, hinner, hrest⟩ := h
    intro e he
    simp only [flatten_group, List.mem_cons, List.mem_append] at he
    rcases he with rfl | he | rfl | he
    · exact Int.le_of_eq ho.symm
    · have := ihi hinner e he
      omega
    · exact Int.le_of_eq hc.symm
    · exact ih hrest e he

/-- A forest that fits starts at its depth. -/
theorem Fits.depth_head (h : Fits d F) (he : F.flatten.head? = some e) : e.depth = d := by
  cases F with
  | nil => cases he
  | leaf x rest =>
    obtain rfl := Option.some.inj he
    exact h.2.1
  | group o inner c rest =>
    obtain rfl := Option.some.inj he
    exact h.2.1.1

/-- A forest that fits ends at its depth. -/
theorem Fits.depth_getLast (h : Fits d F) (he : F.flatten.getLast? = some e) : e.depth = d := by
  induction F with
  | nil => cases he
  | leaf x rest ih =>
    cases hr : rest.flatten.getLast? with
    | none =>
      rw [List.getLast?_eq_none_iff] at hr
      obtain rfl : x = e := by simpa [hr] using he
      exact h.2.1
    | some y =>
      refine ih h.2.2 ?_
      rw [flatten_leaf, List.getLast?_cons, hr] at he
      rw [hr]
      exact he
  | group o inner c rest _ ih =>
    cases hr : rest.flatten.getLast? with
    | none =>
      rw [List.getLast?_eq_none_iff] at hr
      obtain rfl : c = e := by simpa [hr, List.getLast?_cons] using he
      exact h.2.1.2
    | some y =>
      refine ih h.2.2.2.2 ?_
      rw [hr]
      simpa [List.getLast?_cons, hr] using he

theorem outsideDirectives_nil : nil.OutsideDirectives := by
  intro e he
  cases he

/-- A leaf in front is outside directives or it is not. -/
theorem outsideDirectives_leaf : (leaf e F).OutsideDirectives ↔ e.inDirective = false ∧ F.OutsideDirectives := by
  simp [OutsideDirectives]

/-- Two forests are outside directives if both are. -/
theorem outsideDirectives_append : (F ++ G).OutsideDirectives ↔ F.OutsideDirectives ∧ G.OutsideDirectives := by
  simp only [OutsideDirectives, flatten_append, List.mem_append, or_imp, forall_and]

/-- A group is outside directives if its brackets and what they hold are. -/
theorem outsideDirectives_group {o c : Entry} {inner : Forest} : (group o inner c F).OutsideDirectives ↔
    o.inDirective = false ∧ inner.OutsideDirectives ∧ c.inDirective = false ∧ F.OutsideDirectives := by
  simp only [OutsideDirectives, flatten_group, List.mem_cons, List.mem_append, or_imp, forall_and, forall_eq]

end Forest

/-- The lexemes of entries. -/
def Entry.lexemes (es : List Entry) : List Lexeme := es.map (·.lexeme)

@[simp] theorem Entry.lexemes_append (es es' : List Entry) : lexemes (es ++ es') = lexemes es ++ lexemes es' := List.map_append

@[simp] theorem Entry.lexemes_cons (e : Entry) (es : List Entry) : lexemes (e :: es) = e.lexeme :: lexemes es := rfl

/-- The brackets of the strand match, and depths count them. -/
def Strand.WellBracketed (s : Strand) : Prop := wellBracketed [] s.lexemes = true

namespace BracketAux

open Forest

/-- Columns play no part in matching. -/
theorem wellBracketed_map_bare (opened : List Bracket) (xs : List Lexeme) :
    wellBracketed opened (xs.map Lexeme.bare) = wellBracketed opened xs := by
  induction xs generalizing opened with
  | nil => rfl
  | cons x xs ih =>
    have hk : x.bare.kind = x.kind := rfl
    have hd : x.bare.depth = x.depth := rfl
    have hi : x.bare.inDirective = x.inDirective := rfl
    rw [List.map_cons, wellBracketed, wellBracketed, hk, hd, hi]
    split
    · rw [ih]
    · cases opened with
      | nil => rfl
      | cons b outer => simp only [ih]
    · rw [ih]

/-- Columns apart, a listing holds the lexemes of the strand. -/
theorem lexemes_entries (s : Strand) : Entry.lexemes s.entries = s.lexemes.map Lexeme.bare := by
  simp [Entry.lexemes, Strand.entries, Strand.lexemes, Function.comp_def]

variable {opened : List Bracket} {es : List Entry} {e : Entry}

/-- An opening bracket goes onto those that are open. -/
theorem wellBracketed_cons_opening {x : Lexeme} {b : Bracket} (h : x.kind = .opening b) (xs : List Lexeme) :
    wellBracketed opened (x :: xs) = true ↔
      x.depth = opened.length ∧ x.inDirective = false ∧ wellBracketed (b :: opened) xs = true := by
  simp [wellBracketed, h, and_assoc]

/-- A closing bracket takes the last one that is open. -/
theorem wellBracketed_cons_closing {x : Lexeme} {b b' : Bracket} (h : x.kind = .closing b) (xs : List Lexeme) :
    wellBracketed (b' :: opened) (x :: xs) = true ↔
      b' = b ∧ x.depth = opened.length ∧ x.inDirective = false ∧ wellBracketed opened xs = true := by
  simp [wellBracketed, h, and_assoc]

/-- Anything else leaves those that are open. -/
theorem wellBracketed_cons_other {x : Lexeme} (h : x.kind.isBracket = false) (xs : List Lexeme) :
    wellBracketed opened (x :: xs) = true ↔ x.depth = opened.length ∧ wellBracketed opened xs = true := by
  rw [wellBracketed]
  split
  · rename_i b hb
    rw [hb] at h
    cases h
  · rename_i b hb
    rw [hb] at h
    cases h
  · simp

/-- An entry that opens a bracket, in a listing. -/
theorem wellBracketed_opening {b : Bracket} {xs : List Lexeme} (h : e.kind = .opening b) :
    wellBracketed opened (e.lexeme :: xs) = true ↔
      e.depth = opened.length ∧ e.inDirective = false ∧ wellBracketed (b :: opened) xs = true :=
  wellBracketed_cons_opening h xs

/-- An entry that closes a bracket, in a listing. -/
theorem wellBracketed_closing {b b' : Bracket} {xs : List Lexeme} (h : e.kind = .closing b) :
    wellBracketed (b' :: opened) (e.lexeme :: xs) = true ↔
      b' = b ∧ e.depth = opened.length ∧ e.inDirective = false ∧ wellBracketed opened xs = true :=
  wellBracketed_cons_closing h xs

/-- An entry that is no bracket, in a listing. -/
theorem wellBracketed_other {xs : List Lexeme} (h : e.kind.isBracket = false) :
    wellBracketed opened (e.lexeme :: xs) = true ↔ e.depth = opened.length ∧ wellBracketed opened xs = true :=
  wellBracketed_cons_other h xs

/-- A matched part leaves the open brackets as they are. -/
theorem wellBracketed_append {F : Forest} (h : F.Fits opened.length) (xs : List Lexeme) :
    wellBracketed opened (Entry.lexemes F.flatten ++ xs) = true ↔ wellBracketed opened xs = true := by
  induction F generalizing opened xs with
  | nil => rfl
  | leaf e rest ih =>
    obtain ⟨hk, hd, hrest⟩ := h
    rw [flatten_leaf, Entry.lexemes_cons, List.cons_append, wellBracketed_other hk, ih hrest, and_iff_right hd]
  | group o inner c rest ihi ih =>
    obtain ⟨⟨b, ho, hc⟩, ⟨hod, hcd⟩, ⟨hoi, hci⟩, hinner, hrest⟩ := h
    have hinner' : inner.Fits ((b :: opened).length : Nat) := by
      rw [List.length_cons, Int.natCast_succ]
      exact hinner
    rw [flatten_group, Entry.lexemes_cons, Entry.lexemes_append, Entry.lexemes_cons, List.cons_append, List.append_assoc,
      List.cons_append, wellBracketed_opening ho, ihi hinner', wellBracketed_closing hc, ih hrest, and_iff_right hod,
      and_iff_right hoi, and_iff_right rfl, and_iff_right hcd, and_iff_right hci]

/-- Well-bracketed entries are a forest up to the bracket that closes the innermost one open at their start. -/
theorem exists_forest_append {n : Nat} (hn : es.length ≤ n) (h : wellBracketed opened (Entry.lexemes es) = true) :
    ∃ (F : Forest) (rest : List Entry), es = F.flatten ++ rest ∧ F.Fits opened.length ∧
      (opened = [] ∧ rest = [] ∨ ∃ b outer c rest', opened = b :: outer ∧ rest = c :: rest' ∧ c.kind = .closing b ∧
        c.depth = outer.length ∧ c.inDirective = false ∧ wellBracketed outer (Entry.lexemes rest') = true) := by
  induction n generalizing opened es with
  | zero =>
    obtain rfl := List.length_eq_zero_iff.1 (Nat.le_zero.1 hn)
    refine ⟨.nil, [], rfl, trivial, .inl ⟨?_, rfl⟩⟩
    simpa [wellBracketed, Entry.lexemes] using h
  | succ n ih =>
    cases es with
    | nil =>
      refine ⟨.nil, [], rfl, trivial, .inl ⟨?_, rfl⟩⟩
      simpa [wellBracketed, Entry.lexemes] using h
    | cons e es =>
      have hlen : es.length ≤ n := Nat.le_of_succ_le_succ hn
      rw [Entry.lexemes_cons] at h
      by_cases hk : e.kind.isBracket = false
      · obtain ⟨hd, hes⟩ := (wellBracketed_other hk).1 h
        obtain ⟨F, rest, rfl, hF, hrest⟩ := ih hlen hes
        exact ⟨.leaf e F, rest, rfl, ⟨hk, hd, hF⟩, hrest⟩
      · cases hkind : e.kind with
        | opening b =>
          obtain ⟨hd, hdir, hes⟩ := (wellBracketed_opening hkind).1 h
          obtain ⟨F, rest, rfl, hF, hrest⟩ := ih hlen hes
          rcases hrest with ⟨hnil, -⟩ | ⟨b', outer, c, rest', hcons, rfl, hc, hcd, hcdir, hrest'⟩
          · cases hnil
          · obtain ⟨rfl, rfl⟩ := List.cons.inj hcons
            have hlen' : rest'.length ≤ n := by
              simp only [List.length_append, List.length_cons] at hlen
              omega
            obtain ⟨G, rest, rfl, hG, hrest⟩ := ih hlen' hrest'
            rw [List.length_cons, Int.natCast_succ] at hF
            exact ⟨.group e F c G, rest, by simp, ⟨⟨b, hkind, hc⟩, ⟨hd, hcd⟩, ⟨hdir, hcdir⟩, hF, hG⟩, hrest⟩
        | closing b =>
          cases opened with
          | nil =>
            have hek : e.lexeme.kind = .closing b := hkind
            simp [wellBracketed, hek] at h
          | cons b' outer =>
            obtain ⟨rfl, hd, hdir, hes⟩ := (wellBracketed_closing hkind).1 h
            exact ⟨.nil, e :: es, rfl, trivial, .inr ⟨b', outer, e, es, rfl, rfl, hkind, hd, hdir, hes⟩⟩
        | _ => simp [hkind, Kind.isBracket] at hk

/-- Where some of the lexemes have been read, only the brackets then open matter for the others. -/
theorem exists_opened_of_append {xs ys : List Lexeme} (h : wellBracketed opened (xs ++ ys) = true) :
    ∃ opened', wellBracketed opened' ys = true ∧
      ∀ ys', wellBracketed opened' ys' = true → wellBracketed opened (xs ++ ys') = true := by
  induction xs generalizing opened with
  | nil => exact ⟨opened, h, fun _ hys => hys⟩
  | cons x xs ih =>
    rw [List.cons_append] at h
    by_cases hk : x.kind.isBracket = false
    · obtain ⟨hd, hxs⟩ := (wellBracketed_cons_other hk _).1 h
      obtain ⟨opened', hys, hread⟩ := ih hxs
      exact ⟨opened', hys, fun ys' hys' => (wellBracketed_cons_other hk _).2 ⟨hd, hread ys' hys'⟩⟩
    · cases hkind : x.kind with
      | opening b =>
        obtain ⟨hd, hdir, hxs⟩ := (wellBracketed_cons_opening hkind _).1 h
        obtain ⟨opened', hys, hread⟩ := ih hxs
        exact ⟨opened', hys, fun ys' hys' => (wellBracketed_cons_opening hkind _).2 ⟨hd, hdir, hread ys' hys'⟩⟩
      | closing b =>
        cases opened with
        | nil => simp [wellBracketed, hkind] at h
        | cons b' outer =>
          obtain ⟨hb, hd, hdir, hxs⟩ := (wellBracketed_cons_closing hkind _).1 h
          obtain ⟨opened', hys, hread⟩ := ih hxs
          exact ⟨opened', hys, fun ys' hys' => (wellBracketed_cons_closing hkind _).2 ⟨hb, hd, hdir, hread ys' hys'⟩⟩
      | _ => simp [hkind, Kind.isBracket] at hk

/-- An entry of the forest's own depth that is no bracket stands in no group of it. -/
theorem exists_forest_front {F : Forest} {d : Int} {m q : List Entry} (h : F.Fits d) (hsplit : F.flatten = m ++ e :: q)
    (hk : e.kind.isBracket = false) (hd : e.depth = d) : ∃ G : Forest, m = G.flatten ∧ G.Fits d := by
  induction F generalizing m with
  | nil => simp at hsplit
  | leaf x rest ih =>
    obtain ⟨hx, hxd, hrest⟩ := h
    cases m with
    | nil => exact ⟨.nil, rfl, trivial⟩
    | cons y m =>
      obtain ⟨rfl, hrestflat⟩ := List.cons.inj hsplit
      obtain ⟨G, rfl, hG⟩ := ih hrest hrestflat
      exact ⟨.leaf x G, rfl, hx, hxd, hG⟩
  | group o inner c rest _ ih =>
    obtain ⟨⟨b, ho, hc⟩, hdepth, hdir, hinner, hrest⟩ := h
    have hne : ∀ x ∈ o :: (inner.flatten ++ [c]), x ≠ e := by
      rintro x hx rfl
      simp only [List.mem_cons, List.mem_append, List.not_mem_nil, or_false] at hx
      rcases hx with rfl | hx | rfl
      · simp [ho, Kind.isBracket] at hk
      · have hle := hinner.le_depth x hx
        omega
      · simp [hc, Kind.isBracket] at hk
    have hflat : (o :: (inner.flatten ++ [c])) ++ rest.flatten = m ++ e :: q := by simpa using hsplit
    rcases List.append_eq_append_iff.1 hflat with ⟨m', rfl, hrestflat⟩ | ⟨g', hgroup, hcons⟩
    · obtain ⟨G, rfl, hG⟩ := ih hrest hrestflat
      exact ⟨.group o inner c G, by simp, ⟨b, ho, hc⟩, hdepth, hdir, hinner, hG⟩
    · cases g' with
      | nil =>
        obtain ⟨G, hG, hfits⟩ := ih (m := []) hrest (by simpa using hcons.symm)
        refine ⟨.group o inner c .nil, ?_, ⟨b, ho, hc⟩, hdepth, hdir, hinner, trivial⟩
        simpa using hgroup.symm
      | cons x g' =>
        obtain ⟨rfl, -⟩ := List.cons.inj hcons
        refine absurd rfl (hne e ?_)
        rw [hgroup]
        simp

end BracketAux

open BracketAux

/-- Entries are well bracketed just when they are a forest of depth 0. -/
theorem wellBracketed_iff_exists_forest {es : List Entry} :
    wellBracketed [] (Entry.lexemes es) = true ↔ ∃ F : Forest, es = F.flatten ∧ F.Fits 0 := by
  constructor
  · intro h
    obtain ⟨F, rest, hes, hF, hrest⟩ := exists_forest_append (Nat.le_refl _) h
    rcases hrest with ⟨-, rfl⟩ | ⟨b, outer, c, rest', hcons, -⟩
    · exact ⟨F, by simpa using hes, hF⟩
    · cases hcons
  · rintro ⟨F, rfl, hF⟩
    have hfits : F.Fits (([] : List Bracket).length : Nat) := hF
    have happ := (wellBracketed_append hfits []).2 rfl
    rwa [List.append_nil] at happ

/-- Whether a strand is well-bracketed is read off its listing. -/
theorem Strand.Lists.wellBracketed_iff_lexemes {s : Strand} {es : List Entry} (h : s.Lists es) :
    s.WellBracketed ↔ wellBracketed [] (Entry.lexemes es) = true := by
  rw [WellBracketed, ← wellBracketed_map_bare, ← lexemes_entries, h.entries_eq]

/-- A strand is well bracketed just when it lists a forest of depth 0. -/
theorem Strand.Lists.wellBracketed_iff {s : Strand} {es : List Entry} (h : s.Lists es) :
    s.WellBracketed ↔ ∃ F : Forest, es = F.flatten ∧ F.Fits 0 := by
  rw [h.wellBracketed_iff_lexemes, wellBracketed_iff_exists_forest]

/-- The partner of an opening bracket is the one that closes its group. -/
theorem Strand.Lists.partner_group {s : Strand} {p q : List Entry} {o w : Entry} {inner : Forest}
    (h : s.Lists (p ++ o :: (inner.flatten ++ w :: q))) (hgroup : Forest.IsGroup o inner w) :
    s.partner (some o.name) = some w.name := by
  obtain ⟨b, ho, hw⟩ := hgroup.kinds
  -- What stands in the group lies deeper than its brackets.
  have hskip : inner.flatten.find? (fun x => x.kind = .closing b && x.depth = o.depth) = none := by
    refine List.find?_eq_none.2 ?_
    intro x hx
    have hdepth := hgroup.fits.le_depth x hx
    have hne : x.depth ≠ o.depth := by omega
    simp [hne]
  rw [h.partner_eq ho, List.find?_append, hskip, Option.none_or, List.find?_cons]
  simp [hw, hgroup.depth]

end CodeGroom
