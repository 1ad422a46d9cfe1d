import CodeGroom.Grouping.Pair
import CodeGroom.Proofs.Bracket.Forest

/-!
# Closed regions

A region is closed when no bracket that opens in it closes outside of it. On a strand with matched brackets the lexemes between
two lexemes of the same depth are a forest just when the region between those two is closed.
-/

namespace CodeGroom

/-- No bracket that opens between the ends of the region closes outside of it. -/
def Strand.Closed (s : Strand) (r : Region) : Prop :=
  ∀ i ∈ s.between r.first r.last, ∀ j, s.partner (some i) = some j → j ∈ s.between r.first r.last

instance (s : Strand) (r : Region) : Decidable (s.Closed r) :=
  decidable_of_iff (∀ i ∈ s.between r.first r.last, (s.partner (some i)).all (· ∈ s.between r.first r.last) = true) <|
    forall₂_congr fun i _ => by cases s.partner (some i) <;> simp

open Forest BracketAux

variable {s : Strand} {es p q m : List Entry} {a e o w z : Entry} {d : Int} {F inner : Forest}

namespace BracketAux

/-- Around an entry that is deeper than the forest it stands in lies a group of the forest. -/
theorem exists_group_around (hF : F.Fits d) (hsplit : F.flatten = m ++ z :: q) (hz : d < z.depth) :
    ∃ m₁ m₂ q₁ q₂ o inner w, m = m₁ ++ o :: m₂ ∧ q = q₁ ++ w :: q₂ ∧ inner.flatten = m₂ ++ z :: q₁ ∧ IsGroup o inner w := by
  induction F generalizing m with
  | nil => simp at hsplit
  | leaf x rest ih =>
    obtain ⟨-, hx, hrest⟩ := hF
    cases m with
    | nil =>
      obtain ⟨rfl, -⟩ := List.cons.inj hsplit
      omega
    | cons y m =>
      obtain ⟨rfl, hflat⟩ := List.cons.inj hsplit
      obtain ⟨m₁, m₂, q₁, q₂, o, inner, w, rfl, hq, hinner, hgroup⟩ := ih hrest hflat
      exact ⟨x :: m₁, m₂, q₁, q₂, o, inner, w, rfl, hq, hinner, hgroup⟩
  | group o inner w rest _ ih =>
    obtain ⟨hkinds, ⟨ho, hw⟩, -, hinner, hrest⟩ := hF
    have hgroup : IsGroup o inner w := ⟨hkinds, hw.trans ho.symm, ho ▸ hinner⟩
    cases m with
    | nil =>
      obtain ⟨rfl, -⟩ := List.cons.inj hsplit
      omega
    | cons y m =>
      obtain ⟨rfl, hflat⟩ := List.cons.inj hsplit
      rcases List.append_eq_append_iff.1 hflat with ⟨m', rfl, hm'⟩ | ⟨q', hinnerflat, hq'⟩
      · cases m' with
        | nil =>
          obtain ⟨rfl, -⟩ := List.cons.inj hm'
          omega
        | cons y m' =>
          obtain ⟨rfl, hrestflat⟩ := List.cons.inj hm'
          obtain ⟨m₁, m₂, q₁, q₂, o', inner', w', rfl, hq, hinner', hgroup'⟩ := ih hrest hrestflat
          exact ⟨o :: (inner.flatten ++ w :: m₁), m₂, q₁, q₂, o', inner', w', by simp, hq, hinner', hgroup'⟩
      · cases q' with
        | nil =>
          obtain ⟨rfl, -⟩ := List.cons.inj hq'
          omega
        | cons x q' =>
          obtain ⟨rfl, rfl⟩ := List.cons.inj hq'
          exact ⟨[], m, q', rest.flatten, o, inner, w, rfl, rfl, hinnerflat, hgroup⟩

/-- Between two entries of one depth lies a forest, or else a group that opens between them and closes behind the second. -/
theorem exists_forest_between (hF : F.Fits d) (hsplit : F.flatten = p ++ a :: (m ++ z :: q)) (ha : a.kind.isBracket = false)
    (hz : z.kind.isBracket = false) (hdepth : z.depth = a.depth) :
    (∃ G : Forest, m = G.flatten ∧ G.Fits a.depth) ∨
      ∃ m₁ m₂ q₁ q₂ o inner w, m = m₁ ++ o :: m₂ ∧ q = q₁ ++ w :: q₂ ∧ inner.flatten = m₂ ++ z :: q₁ ∧ IsGroup o inner w := by
  induction F generalizing p m q d with
  | nil => simp at hsplit
  | leaf x rest ih =>
    obtain ⟨-, hx, hrest⟩ := hF
    cases p with
    | nil =>
      obtain ⟨rfl, hflat⟩ := List.cons.inj hsplit
      rw [← hx] at hrest
      exact .inl (exists_forest_front hrest hflat hz hdepth)
    | cons y p =>
      obtain ⟨rfl, hflat⟩ := List.cons.inj hsplit
      exact ih hrest hflat
  | group o inner w rest ihi ih =>
    obtain ⟨⟨b, ho, hw⟩, ⟨hod, hwd⟩, -, hinner, hrest⟩ := hF
    cases p with
    | nil =>
      obtain ⟨rfl, -⟩ := List.cons.inj hsplit
      simp [ho, Kind.isBracket] at ha
    | cons y p =>
      obtain ⟨rfl, hflat⟩ := List.cons.inj hsplit
      rcases List.append_eq_append_iff.1 hflat with ⟨p', rfl, hp'⟩ | ⟨q', hinnerflat, hq'⟩
      · cases p' with
        | nil =>
          obtain ⟨rfl, -⟩ := List.cons.inj hp'
          simp [hw, Kind.isBracket] at ha
        | cons y p' =>
          obtain ⟨rfl, hrestflat⟩ := List.cons.inj hp'
          exact ih hrest hrestflat
      · cases q' with
        | nil =>
          obtain ⟨rfl, -⟩ := List.cons.inj hq'
          simp [hw, Kind.isBracket] at ha
        | cons x q' =>
          obtain ⟨rfl, hrestflat⟩ := List.cons.inj hq'
          have had : d + 1 ≤ a.depth := hinner.le_depth a (by rw [hinnerflat]; simp)
          rcases List.append_eq_append_iff.1 hrestflat with ⟨t, rfl, ht⟩ | ⟨t, rfl, ht⟩
          · cases t with
            | nil =>
              obtain ⟨rfl, -⟩ := List.cons.inj ht
              simp [hw, Kind.isBracket] at hz
            | cons x t =>
              obtain ⟨rfl, rfl⟩ := List.cons.inj ht
              rcases ihi hinner hinnerflat with hforest | ⟨m₁, m₂, q₁, q₂, o', inner', w', hm, rfl, hinner', hgroup⟩
              · exact .inl hforest
              · exact .inr ⟨m₁, m₂, q₁, q₂ ++ w :: rest.flatten, o', inner', w', hm, by simp, hinner', hgroup⟩
          · -- The first entry stands in the group and the second one behind it, so another group lies around the second.
            cases t with
            | nil =>
              obtain ⟨rfl, -⟩ := List.cons.inj ht
              simp [hw, Kind.isBracket] at hz
            | cons x t =>
              obtain ⟨rfl, hbehind⟩ := List.cons.inj ht
              have hdeep : d < z.depth := by omega
              obtain ⟨m₁, m₂, q₁, q₂, o', inner', w', rfl, hq, hinner', hgroup⟩ := exists_group_around hrest hbehind hdeep
              exact .inr ⟨q' ++ w :: m₁, m₂, q₁, q₂, o', inner', w', by simp, hq, hinner', hgroup⟩

end BracketAux

/-- In a closed region between two lexemes of one depth the brackets match. -/
theorem Strand.Closed.exists_forest (hclosed : s.Closed { first := some a.name, last := some z.name })
    (h : s.Lists (p ++ a :: (m ++ z :: q))) (hs : s.WellBracketed) (ha : a.kind.isBracket = false)
    (hz : z.kind.isBracket = false) (hdepth : z.depth = a.depth) : ∃ G : Forest, m = G.flatten ∧ G.Fits a.depth := by
  obtain ⟨F, hflat, hF⟩ := h.wellBracketed_iff.1 hs
  rcases exists_forest_between hF hflat.symm ha hz hdepth with hforest | ⟨m₁, m₂, q₁, q₂, o, inner, w, rfl, rfl, hinner, hgroup⟩
  · exact hforest
  · -- The group that closes outside is what a closed region does not have.
    have hlists : s.Lists ((p ++ a :: m₁) ++ o :: (inner.flatten ++ w :: q₂)) := by
      rw [hinner]
      simpa using h
    have hbetween := h.between_eq
    have hin : w.name ∈ Entry.names (m₁ ++ o :: m₂) := by
      rw [← hbetween]
      refine hclosed o.name ?_ w.name (hlists.partner_group hgroup)
      rw [hbetween]
      simp
    have hnodup : (Entry.names (p ++ [a]) ++ (Entry.names (m₁ ++ o :: m₂) ++ Entry.names (z :: (q₁ ++ w :: q₂)))).Nodup := by
      simpa using h.linked.nodup
    have hdisjoint := (List.nodup_append.1 (List.nodup_append.1 hnodup).2.1).2.2
    exact absurd rfl (hdisjoint w.name hin w.name (Entry.mem_names (by simp)))

end CodeGroom
