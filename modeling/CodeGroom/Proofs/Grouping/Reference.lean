import CodeGroom.Annotate.Reading
import CodeGroom.Proofs.Grouping.Regions
import Mathlib.Algebra.GroupWithZero.Nat
import Mathlib.Data.List.DropRight

/-!
# The reference for a scan

What a scan makes of a region can be told without its cursor. The items of a region are its entries outside of all brackets, and
its brackets with all that they hold; separators cut them into runs. A run with a comparison gets a pair if a separator other
than a semicolon ends it, or if the region ends it and some separator stands in front of it. Each round bracket is a region of its
own. A scan gives just that, and counts its pairs.
-/

namespace CodeGroom

/-- The entry where only names below `n` are told apart. -/
def Entry.upTo (n : Nat) (e : Entry) : Entry := ⟨min e.name n, e.lexeme⟩

namespace Reference

open Grouping

/-- An entry that stands outside of all brackets of its region, or an opening bracket that does: what is listed of it and of what
it holds, and how many pairs that has got. -/
structure Item where
  head : Entry
  listing : List Entry
  pairs : Nat := 0

/-- An entry outside of all brackets. -/
def Item.ofEntry (e : Entry) : Item := { head := e, listing := [e] }

/-- A bracket in which some entries are listed and some pairs were inserted. -/
def Item.ofGroup (o : Entry) (es : List Entry) (c : Entry) (pairs : Nat) : Item :=
  { head := o, listing := o :: (es ++ [c]), pairs }

section Fields

variable {e o c : Entry} {es : List Entry} {pairs : Nat}

@[simp] theorem Item.head_ofEntry : (ofEntry e).head = e := rfl

@[simp] theorem Item.listing_ofEntry : (ofEntry e).listing = [e] := rfl

@[simp] theorem Item.pairs_ofEntry : (ofEntry e).pairs = 0 := rfl

@[simp] theorem Item.head_ofGroup : (ofGroup o es c pairs).head = o := rfl

@[simp] theorem Item.listing_ofGroup : (ofGroup o es c pairs).listing = o :: (es ++ [c]) := rfl

@[simp] theorem Item.pairs_ofGroup : (ofGroup o es c pairs).pairs = pairs := rfl

end Fields

/-- Whether the item separates two runs. -/
def Item.separates (i : Item) : Bool := i.head.kind.endsRun || i.head.kind = .semicolon

/-- The items between two separators, whether there is a separator in front of them, and the one behind them. There is none where
the region ends the run. -/
structure Run where
  behind : Bool
  items : List Item
  ender : Option Item

/-- Whether the run gets a pair. -/
def Run.isEnclosed (r : Run) : Bool :=
  r.items.any (·.head.kind = .compare) &&
    match r.ender with
    | some i => i.head.kind.endsRun
    | none => r.behind

/-- Cuts items into runs. Some items of the first run may have been passed already. -/
def runs (behind : Bool) (passed : List Item) : List Item → List Run
  | [] => [⟨behind, passed, none⟩]
  | i :: items =>
    if i.separates then ⟨behind, passed, some i⟩ :: runs true [] items else runs behind (passed ++ [i]) items

/-- The entries with all from the first code to the last in parentheses, which are named `n`. -/
def enclosed (n : Nat) (es : List Entry) : List Entry :=
  match es.find? (!·.isLayout), es.reverse.find? (!·.isLayout) with
  | some x, some y =>
    let core := (es.dropWhile (·.isLayout)).rdropWhile (·.isLayout)
    es.takeWhile (·.isLayout) ++ ⟨n, (openingBefore x.lexeme).bare⟩ ::
      (core.map (Entry.change deepen) ++ ⟨n, (closingAfter y.lexeme).bare⟩ :: es.rtakeWhile (·.isLayout))
  | _, _ => es

/-- What is listed of the run and of the separator that ends it. -/
def Run.listing (n : Nat) (r : Run) : List Entry :=
  let es := r.items.flatMap (·.listing)
  (if r.isEnclosed then enclosed n es else es) ++ r.ender.elim [] (·.listing)

/-- What is listed of a region that holds some items. -/
def region (n : Nat) (items : List Item) : List Entry := (runs false [] items).flatMap (·.listing n)

/-- How many pairs a region gets that holds some items. -/
def pairCount (items : List Item) : Nat := (items.map (·.pairs)).sum + (runs false [] items).countP (·.isEnclosed)

/-- The items of a region. -/
def items (n : Nat) : Forest → List Item
  | .nil => []
  | .leaf e rest => .ofEntry e :: items n rest
  | .group o inner c rest =>
    if o.kind.opensRound then .ofGroup o (region n (items n inner)) c (pairCount (items n inner)) :: items n rest
    else .ofGroup o inner.flatten c 0 :: items n rest

end Reference

namespace Forest

/-- Whether a directive lies in the region. -/
def hasDirective (F : Forest) : Bool := F.flatten.any (·.inDirective)

/-- What is listed of a region once it has been scanned, with `n` for the names of new parentheses. -/
def reference (n : Nat) (F : Forest) : List Entry :=
  if F.hasDirective then F.flatten else Reference.region n (Reference.items n F)

/-- How many pairs a scan inserts into a region. -/
def referencePairs (n : Nat) (F : Forest) : Nat :=
  if F.hasDirective then 0 else Reference.pairCount (Reference.items n F)

/-- The brackets of the forest match, and depths count the groups from `d` on. -/
def Nests : Int → Forest → Prop
  | _, nil => True
  | d, leaf e rest => e.kind.isBracket = false ∧ e.depth = d ∧ rest.Nests d
  | d, group o inner c rest =>
    o.kind.closer? = some c.kind ∧ (o.depth = d ∧ c.depth = d) ∧ inner.Nests (d + 1) ∧ rest.Nests d

instance decidableNests : (d : Int) → (F : Forest) → Decidable (F.Nests d)
  | _, nil => isTrue trivial
  | d, leaf e rest =>
    have := decidableNests d rest
    inferInstanceAs (Decidable (e.kind.isBracket = false ∧ e.depth = d ∧ rest.Nests d))
  | d, group o inner c rest =>
    have := decidableNests (d + 1) inner
    have := decidableNests d rest
    inferInstanceAs (Decidable (o.kind.closer? = some c.kind ∧ (o.depth = d ∧ c.depth = d) ∧ inner.Nests (d + 1) ∧ rest.Nests d))

variable {F : Forest} {d : Int}

theorem exists_of_closer {k k' : Kind} (h : k.closer? = some k') : ∃ b, k = .opening b ∧ k' = .closing b := by
  cases k with
  | opening b => exact ⟨b, rfl, (Option.some.inj h).symm⟩
  | _ => cases h

theorem Nests.fits (h : F.Nests d) (hout : F.OutsideDirectives) : F.Fits d := by
  induction F generalizing d with
  | nil => trivial
  | leaf e rest ih =>
    obtain ⟨hk, hd, hrest⟩ := h
    exact ⟨hk, hd, ih hrest (outsideDirectives_leaf.1 hout).2⟩
  | group o inner c rest ihi ih =>
    obtain ⟨hcloser, hd, hinner, hrest⟩ := h
    obtain ⟨ho, hinnerout, hc, hrestout⟩ := outsideDirectives_group.1 hout
    exact ⟨exists_of_closer hcloser, hd, ⟨ho, hc⟩, ihi hinner hinnerout, ih hrest hrestout⟩

theorem hasDirective_eq_false : F.hasDirective = false ↔ F.OutsideDirectives := by
  simp [hasDirective, OutsideDirectives]

end Forest

namespace ReferenceAux

open Forest Grouping Reference

/-! ## Names -/

/-- Among the names `is` those below `n` are all from `old`, and no name is there twice. -/
structure Fresh (n : Nat) (old is : List Nat) : Prop where
  nodup : is.Nodup
  mem_old : ∀ i ∈ is, i < n → i ∈ old

variable {n : Nat} {old old' is is' before before' behind behind' : List Nat}

theorem Fresh.mono (h : Fresh n old is) (hold : old ⊆ old') (his : is'.Sublist is) : Fresh n old' is' where
  nodup := h.nodup.sublist his
  mem_old i hi hlt := hold (h.mem_old i (his.subset hi) hlt)

/-- What is new in the middle has come there. -/
theorem Fresh.middle (h : Fresh n (before ++ (old ++ behind)) (before' ++ (is ++ behind'))) (hbefore : before ⊆ before')
    (hbehind : behind ⊆ behind') : Fresh n old is where
  nodup := h.nodup.of_append_right.of_append_left
  mem_old i hi hlt := by
    have hnodup := h.nodup
    simp only [List.nodup_append, List.mem_append] at hnodup
    have hmem := h.mem_old i (by simp [hi]) hlt
    simp only [List.mem_append] at hmem
    rcases hmem with hmem | hmem | hmem
    · exact absurd rfl (hnodup.2.2 i (hbefore hmem) i (.inl hi))
    · exact hmem
    · exact absurd rfl (hnodup.2.1.2.2 i hi i (hbehind hmem))

/-- What is new behind a separator has come there. -/
theorem Fresh.behind_leaf {e : Entry} {run run' rest out : Forest}
    (h : Fresh n (Entry.names (run ++ leaf e rest).flatten) (Entry.names (run' ++ leaf e out).flatten))
    (hsub : Entry.names run.flatten ⊆ Entry.names run'.flatten) :
    Fresh n (Entry.names rest.flatten) (Entry.names out.flatten) := by
  have hmiddle : Fresh n ((Entry.names run.flatten ++ [e.name]) ++ (Entry.names rest.flatten ++ []))
      ((Entry.names run'.flatten ++ [e.name]) ++ (Entry.names out.flatten ++ [])) := by simpa using h
  have hfront : Entry.names run.flatten ++ [e.name] ⊆ Entry.names run'.flatten ++ [e.name] :=
    List.append_subset.2 ⟨List.Subset.trans hsub (List.subset_append_left _ _), List.subset_append_right _ _⟩
  exact hmiddle.middle hfront (.refl _)

/-- What is new in front of a separator has come there. -/
theorem Fresh.front_leaf {e : Entry} {run run' rest out : Forest}
    (h : Fresh n (Entry.names (run ++ leaf e rest).flatten) (Entry.names (run' ++ leaf e out).flatten))
    (hsub : Entry.names rest.flatten ⊆ Entry.names out.flatten) :
    Fresh n (Entry.names run.flatten) (Entry.names run'.flatten) := by
  have hmiddle : Fresh n ([] ++ (Entry.names run.flatten ++ e.name :: Entry.names rest.flatten))
      ([] ++ (Entry.names run'.flatten ++ e.name :: Entry.names out.flatten)) := by simpa using h
  exact hmiddle.middle (.refl _) (List.cons_subset_cons _ hsub)

theorem upTo_of_lt {e : Entry} (h : e.name < n) : e.upTo n = e := by
  rw [Entry.upTo, Nat.min_eq_left h.le]

theorem map_upTo {es : List Entry} (h : ∀ e ∈ es, e.name < n) : es.map (Entry.upTo n) = es := by
  conv_rhs => rw [← List.map_id es]
  exact List.map_congr_left fun e he => upTo_of_lt (h e he)

/-- A parenthesis is new if its name is not among the others. -/
theorem upTo_of_fresh {e : Entry} {x : Lexeme} (h : Fresh n old is) (hmem : e.name ∈ is) (hnot : e.name ∉ old)
    (hx : e.lexeme = x) : e.upTo n = ⟨n, x⟩ := by
  have hle : n ≤ e.name := by
    by_contra hlt
    exact hnot (h.mem_old _ hmem (Nat.not_le.1 hlt))
  rw [Entry.upTo, Nat.min_eq_right hle, hx]

/-! ## A run in parentheses -/

/-- Code with layout around it, in parentheses. -/
theorem enclosed_eq {lead core trail : List Entry} {x y : Entry} (hlead : ∀ e ∈ lead, e.isLayout = true)
    (htrail : ∀ e ∈ trail, e.isLayout = true) (hx : core.head? = some x) (hy : core.getLast? = some y)
    (hxcode : x.isLayout = false) (hycode : y.isLayout = false) :
    enclosed n (lead ++ core ++ trail) = lead ++ ⟨n, (openingBefore x.lexeme).bare⟩ ::
      (core.map (Entry.change deepen) ++ ⟨n, (closingAfter y.lexeme).bare⟩ :: trail) := by
  have hfirst : (lead ++ core ++ trail).find? (!·.isLayout) = some x := by
    have hhead : (core ++ trail).head? = some x := by rw [List.head?_append, hx, Option.some_or]
    rw [List.append_assoc, find?_code hlead hhead hxcode]
  have hlast : (lead ++ core ++ trail).reverse.find? (!·.isLayout) = some y := by
    have hhead : (core.reverse ++ lead.reverse).head? = some y := by
      rw [List.head?_append, List.head?_reverse, hy, Option.some_or]
    rw [List.reverse_append, List.reverse_append]
    exact find?_code (fun e he => htrail e (List.mem_reverse.1 he)) hhead hycode
  obtain ⟨core', hcore'⟩ := List.head?_eq_some_iff.1 hx
  obtain ⟨init, hinit⟩ := List.getLast?_eq_some_iff.1 hy
  have htake : (lead ++ core ++ trail).takeWhile (·.isLayout) = lead := by
    rw [List.append_assoc, List.takeWhile_append_of_pos hlead, hcore']
    simp [hxcode]
  have hdrop : (lead ++ core ++ trail).dropWhile (·.isLayout) = core ++ trail := by
    rw [List.append_assoc, List.dropWhile_append_of_pos hlead, hcore']
    simp [hxcode]
  have hrdrop : (core ++ trail).rdropWhile (·.isLayout) = core := by
    rw [List.rdropWhile, List.reverse_append, List.dropWhile_append_of_pos (fun e he => htrail e (List.mem_reverse.1 he)),
      hinit]
    simp [hycode]
  have hrtake : (lead ++ core ++ trail).rtakeWhile (·.isLayout) = trail := by
    rw [List.rtakeWhile, List.reverse_append, List.takeWhile_append_of_pos (fun e he => htrail e (List.mem_reverse.1 he)),
      hinit]
    simp [hycode]
  rw [enclosed, hfirst, hlast]
  dsimp only
  rw [htake, hdrop, hrdrop, hrtake]

/-- Enclosing a run is what the reference does to it, and two entries more are listed. -/
theorem map_upTo_of_enclosed {run run' : Forest} (h : Enclosed run run')
    (hfresh : Fresh n (Entry.names run.flatten) (Entry.names run'.flatten)) :
    run'.flatten.map (Entry.upTo n) = enclosed n (run.flatten.map (Entry.upTo n)) ∧
      run'.flatten.length = run.flatten.length + 2 := by
  obtain @⟨lead, core, trail, o, c, x, y, hlead, htrail, hx, hy, hxcode, hycode, ho, hc⟩ := h
  have hnodup := hfresh.nodup
  simp only [flatten_append, flatten_group, flatten_change, Entry.names_append, Entry.names_cons, Entry.names_map_change,
    List.nodup_append, List.nodup_cons, List.mem_append, List.mem_cons] at hnodup hfresh
  have ho' : o.upTo n = ⟨n, (openingBefore x.lexeme).bare⟩ := by
    refine upTo_of_fresh hfresh (by simp) ?_ ho
    simp only [List.mem_append]
    rintro ((hmem | hmem) | hmem)
    · exact hnodup.2.2 _ hmem _ (.inl rfl) rfl
    · exact hnodup.2.1.1 (.inl hmem)
    · exact hnodup.2.1.1 (.inr (.inr hmem))
  have hc' : c.upTo n = ⟨n, (closingAfter y.lexeme).bare⟩ := by
    refine upTo_of_fresh hfresh (by simp) ?_ hc
    simp only [List.mem_append]
    rintro ((hmem | hmem) | hmem)
    · exact hnodup.2.2 _ hmem _ (.inr (.inr (.inl rfl))) rfl
    · exact hnodup.2.1.2.2.2 _ hmem _ (.inl rfl) rfl
    · exact hnodup.2.1.2.2.1.1 hmem
  have hlayout : ∀ {F : Forest}, F.IsLayout → ∀ e ∈ F.flatten.map (Entry.upTo n), e.isLayout = true := by
    intro F hF e he
    obtain ⟨u, hu, rfl⟩ := List.mem_map.1 he
    exact hF u hu
  have hhead : (core.flatten.map (Entry.upTo n)).head? = some (x.upTo n) := by rw [List.head?_map, hx, Option.map_some]
  have hlast : (core.flatten.map (Entry.upTo n)).getLast? = some (y.upTo n) := by
    rw [List.getLast?_map, hy, Option.map_some]
  constructor
  · simp only [flatten_append, flatten_group, flatten_change, List.map_append, List.map_cons, ho', hc']
    rw [enclosed_eq (hlayout hlead) (hlayout htrail) hhead hlast hxcode hycode]
    simp only [List.map_map]
    rfl
  · simp only [flatten_append, flatten_group, flatten_change, List.length_append, List.length_cons, List.length_map]
    omega

/-! ## A scan goes as the reference -/

/-- What a scan that has passed some items of its run makes of the rest of its region is what the reference makes of it, and for
each pair two entries more are listed. -/
structure Agrees (n : Nat) (behind : Bool) (passed : List Item) (run rest out : Forest) : Prop where
  listing : out.flatten.map (Entry.upTo n) = (runs behind passed (items n rest)).flatMap (·.listing n)
  length : out.flatten.length = (run ++ rest).flatten.length +
    2 * (((items n rest).map (·.pairs)).sum + (runs behind passed (items n rest)).countP (·.isEnclosed))

variable {run run' rest rest' out : Forest} {left : Option Kind} {compared b : Bool} {passed : List Item} {i : Item}
  {e o c : Entry} {d : Int}

/-- At the end of the region. -/
theorem agrees_end (hmap : run'.flatten.map (Entry.upTo n) = (⟨b, passed, none⟩ : Run).listing n)
    (hlen : run'.flatten.length = run.flatten.length + 2 * (⟨b, passed, none⟩ : Run).isEnclosed.toNat) :
    Agrees n b passed run nil run' where
  listing := by rw [hmap, items, runs, List.flatMap_singleton]
  length := by
    rw [append_nil, hlen, items, runs, List.countP_singleton]
    cases (⟨b, passed, none⟩ : Run).isEnclosed <;> rfl

/-- At a separator. -/
theorem Agrees.separator (h : Agrees n true [] nil rest out) (hsep : (Item.ofEntry e).separates = true)
    (he : e.name < n)
    (hmap : run'.flatten.map (Entry.upTo n) ++ [e] = (⟨b, passed, some (.ofEntry e)⟩ : Run).listing n)
    (hlen : run'.flatten.length = run.flatten.length + 2 * (⟨b, passed, some (.ofEntry e)⟩ : Run).isEnclosed.toNat) :
    Agrees n b passed run (leaf e rest) (run' ++ leaf e out) where
  listing := by
    rw [items, runs, if_pos hsep, List.flatMap_cons, ← h.listing, ← hmap]
    simp [upTo_of_lt he]
  length := by
    have hrest := h.length
    rw [items, runs, if_pos hsep, List.countP_cons, List.map_cons, List.sum_cons]
    simp only [flatten_append, flatten_leaf, List.length_append, List.length_cons, flatten_nil, List.length_nil] at hrest ⊢
    rw [hlen, Item.pairs_ofEntry]
    cases (⟨b, passed, some (.ofEntry e)⟩ : Run).isEnclosed <;> simp <;> omega

/-- At any other item. -/
theorem Agrees.pass (h : Agrees n b (passed ++ [i]) run' rest out) (hitems : items n rest' = i :: items n rest)
    (hsep : i.separates = false) (hlen : run'.flatten.length + rest.flatten.length =
      run.flatten.length + rest'.flatten.length + 2 * i.pairs) : Agrees n b passed run rest' out where
  listing := by rw [hitems, runs, if_neg (by simp [hsep]), h.listing]
  length := by
    have hrest := h.length
    rw [hitems, runs, if_neg (by simp [hsep]), List.map_cons, List.sum_cons]
    simp only [flatten_append, List.length_append] at hrest ⊢
    omega

/-- A bracket neither separates runs nor compares. -/
theorem item_of_opening {b : Bracket} {es : List Entry} {k : Nat} (h : o.kind = .opening b) :
    (Item.ofGroup o es c k).separates = false ∧ o.kind ≠ .compare := by
  simp [Item.separates, h, Kind.endsRun]

/-- A scan goes as the reference, from any place of its region on. -/
theorem agrees_of_grouped (h : Grouped left compared run rest out)
    (hpassed : passed.flatMap (·.listing) = run.flatten.map (Entry.upTo n))
    (hcompared : passed.any (·.head.kind = .compare) = compared) (hfits : rest.Fits d)
    (hold : ∀ e ∈ rest.flatten, e.name < n)
    (hfresh : Fresh n (Entry.names (run ++ rest).flatten) (Entry.names out.flatten)) :
    Agrees n left.isSome passed run rest out := by
  induction h generalizing passed d with
  | @done left compared run hleft =>
    have hnot : (⟨left.isSome, passed, none⟩ : Run).isEnclosed = false := by
      cases hcmp : compared with
      | false => simp [Run.isEnclosed, hcompared, hcmp]
      | true => simp [Run.isEnclosed, hleft hcmp]
    exact agrees_end (by simp [Run.listing, hnot, hpassed]) (by simp [hnot])
  | @doneEnclosed k run run' henc =>
    have hyes : (⟨true, passed, none⟩ : Run).isEnclosed = true := by simp [Run.isEnclosed, hcompared]
    rw [append_nil] at hfresh
    obtain ⟨hmap, hlen⟩ := map_upTo_of_enclosed henc hfresh
    exact agrees_end (by simp [Run.listing, hyes, hpassed, hmap]) (by simp [hyes, hlen])
  | @border left run rest out e hends _ ih =>
    have hsep : (Item.ofEntry e).separates = true := by simp [Item.separates, hends]
    have hnot : (⟨left.isSome, passed, some (.ofEntry e)⟩ : Run).isEnclosed = false := by simp [Run.isEnclosed, hcompared]
    have hrest : Agrees n true [] nil rest out :=
      ih rfl rfl hfits.2.2 (fun x hx => hold x (by simp [hx])) (hfresh.behind_leaf (.refl _))
    exact hrest.separator hsep (hold e (by simp)) (by simp [Run.listing, hnot, hpassed]) (by simp [hnot])
  | @borderEnclosed left run run' rest out e hends henc hgrouped ih =>
    have hsep : (Item.ofEntry e).separates = true := by simp [Item.separates, hends]
    have hyes : (⟨left.isSome, passed, some (.ofEntry e)⟩ : Run).isEnclosed = true := by
      simp [Run.isEnclosed, hcompared, hends]
    have hrest : Agrees n true [] nil rest out := ih rfl rfl hfits.2.2 (fun x hx => hold x (by simp [hx]))
      (hfresh.behind_leaf henc.names_sublist.subset)
    obtain ⟨hmap, hlen⟩ := map_upTo_of_enclosed henc (hfresh.front_leaf hgrouped.names_sublist.subset)
    exact hrest.separator hsep (hold e (by simp)) (by simp [Run.listing, hyes, hpassed, hmap]) (by simp [hyes, hlen])
  | @compare left compared run rest out e hk _ ih =>
    have hsep : (Item.ofEntry e).separates = false := by simp [Item.separates, hk, Kind.endsRun]
    have hrest : Agrees n left.isSome (passed ++ [.ofEntry e]) (run ++ leaf e nil) rest out := by
      refine ih ?_ ?_ hfits.2.2 (fun x hx => hold x (by simp [hx])) ?_
      · simp [hpassed, upTo_of_lt (hold e (by simp))]
      · simp [hk]
      · rwa [append_assoc]
    refine hrest.pass rfl hsep ?_
    simp
    omega
  | @semicolon left compared run rest out e hk _ ih =>
    have hsep : (Item.ofEntry e).separates = true := by simp [Item.separates, hk]
    have hnot : (⟨left.isSome, passed, some (.ofEntry e)⟩ : Run).isEnclosed = false := by
      simp [Run.isEnclosed, hk, Kind.endsRun]
    have hrest : Agrees n true [] nil rest out :=
      ih rfl rfl hfits.2.2 (fun x hx => hold x (by simp [hx])) (hfresh.behind_leaf (.refl _))
    exact hrest.separator hsep (hold e (by simp)) (by simp [Run.listing, hnot, hpassed]) (by simp [hnot])
  | @word left compared run rest out e hends hcmp hsemi _ ih =>
    have hsep : (Item.ofEntry e).separates = false := by simp [Item.separates, hends, hsemi]
    have hrest : Agrees n left.isSome (passed ++ [.ofEntry e]) (run ++ leaf e nil) rest out := by
      refine ih ?_ ?_ hfits.2.2 (fun x hx => hold x (by simp [hx])) ?_
      · simp [hpassed, upTo_of_lt (hold e (by simp))]
      · simp [hcmp, ← hcompared]
      · rwa [append_assoc]
    refine hrest.pass rfl hsep ?_
    simp
    omega
  | @round left compared run inner inner' rest out o c hround hinner hrest ihi ih =>
    obtain ⟨⟨b, hb, -⟩, -, -, hfitsi, hfitsr⟩ := hfits
    -- The names in the region as it was, and as it is once the bracket has been scanned.
    have hwas : Entry.names (run ++ group o inner c rest).flatten = (Entry.names run.flatten ++ [o.name]) ++
        (Entry.names inner.flatten ++ c.name :: Entry.names rest.flatten) := by simp
    have his : Entry.names ((run ++ group o inner' c nil) ++ rest).flatten = (Entry.names run.flatten ++ [o.name]) ++
        (Entry.names inner'.flatten ++ c.name :: Entry.names rest.flatten) := by simp
    have hgrown : (Entry.names inner.flatten).Sublist (Entry.names inner'.flatten) := hinner.names_sublist
    obtain ⟨hsep, hcmp⟩ := item_of_opening hb
    have hin : Agrees n false [] nil inner inner' := by
      refine ihi rfl rfl hfitsi (fun x hx => hold x (by simp [hx])) ?_
      have hscanned := hfresh.mono (.refl _) hrest.names_sublist
      rw [hwas, his] at hscanned
      exact hscanned.middle (.refl _) (.refl _)
    have hnext : Agrees n left.isSome (passed ++ [.ofGroup o (region n (items n inner)) c (pairCount (items n inner))])
        (run ++ group o inner' c nil) rest out := by
      refine ih ?_ ?_ hfitsr (fun x hx => hold x (by simp [hx])) ?_
      · have hlisting := hin.listing
        simp [hpassed, upTo_of_lt (hold o (by simp)), upTo_of_lt (hold c (by simp)), hlisting, region]
      · simp [hcompared, hcmp]
      · refine hfresh.mono ?_ (.refl _)
        rw [hwas, his]
        exact ((hgrown.append_right _).append_left _).subset
    refine hnext.pass ?_ hsep ?_
    · rw [items, if_pos hround]
    · have hlen := hin.length
      rw [nil_append] at hlen
      simp only [flatten_append, flatten_group, flatten_nil, List.length_append, List.length_cons, List.length_nil,
        Item.pairs_ofGroup, pairCount]
      omega
  | @bracket left compared run inner rest out o c hround _ ih =>
    obtain ⟨⟨b, hb, -⟩, -, -, -, hfitsr⟩ := hfits
    obtain ⟨hsep, hcmp⟩ := item_of_opening hb
    have hgroup : ∀ x ∈ (group o inner c nil).flatten, x.name < n := by
      intro x hx
      exact hold x (by simp at hx ⊢; tauto)
    have hrest : Agrees n left.isSome (passed ++ [.ofGroup o inner.flatten c 0]) (run ++ group o inner c nil) rest out := by
      refine ih ?_ ?_ hfitsr (fun x hx => hold x (by simp [hx])) ?_
      · rw [List.flatMap_append, hpassed, flatten_append, List.map_append, map_upTo hgroup]
        simp
      · simp [hcompared, hcmp]
      · rwa [append_assoc]
    refine hrest.pass ?_ hsep ?_
    · rw [items, if_neg (by simp [hround])]
    · simp
      omega

/-- A scan of a region without directives goes as the reference. -/
theorem agrees_of_lists {g g' : Grouping} {p q : List Entry} {a z : Entry} {F : Forest}
    (h : g.strand.Lists (p ++ a :: (F.flatten ++ z :: q))) (h' : g'.strand.Lists (p ++ a :: (out.flatten ++ z :: q)))
    (hfits : F.Fits d) (hgrouped : Grouped none false nil F out) : Agrees g.strand.size false [] nil F out := by
  have hwas : Entry.names (p ++ a :: (F.flatten ++ z :: q)) = Entry.names (p ++ [a]) ++
      (Entry.names F.flatten ++ Entry.names (z :: q)) := by simp
  have his : Entry.names (p ++ a :: (out.flatten ++ z :: q)) = Entry.names (p ++ [a]) ++
      (Entry.names out.flatten ++ Entry.names (z :: q)) := by simp
  have hfresh : Fresh g.strand.size (Entry.names (p ++ a :: (F.flatten ++ z :: q)))
      (Entry.names (p ++ a :: (out.flatten ++ z :: q))) := ⟨h'.linked.nodup, fun i _ hlt => (h.linked.mem_iff i).2 hlt⟩
  rw [hwas, his] at hfresh
  exact agrees_of_grouped hgrouped rfl rfl hfits (fun e he => h.linked.lt_size (Entry.mem_names (by simp [he])))
    (hfresh.middle (.refl _) (.refl _))

end ReferenceAux

open ReferenceAux in
/-- A scan of a region whose brackets match and that ends with code lists what the reference of the region says, inserts as many
pairs, and changes nothing if there are none. -/
theorem Grouping.entries_scan (g : Grouping) (nest : Nat) {p q : List Entry} {a z : Entry} {F : Forest} {d : Int}
    (hlinked : g.strand.WellLinked) (hentries : g.strand.entries = p ++ a :: (F.flatten ++ z :: q))
    (hz : z.inDirective = false) (hcode : z.isLayout = false) (hnests : F.Nests d) :
    (g.scan ⟨some a.name, some z.name, nest⟩).strand.WellLinked ∧
      (g.scan ⟨some a.name, some z.name, nest⟩).strand.entries.map (Entry.upTo g.strand.size) =
        p ++ a :: (F.reference g.strand.size ++ z :: q) ∧
      (g.scan ⟨some a.name, some z.name, nest⟩).inserted = g.inserted + F.referencePairs g.strand.size ∧
      (F.referencePairs g.strand.size = 0 → (g.scan ⟨some a.name, some z.name, nest⟩).strand = g.strand) := by
  have hlists := hlinked.lists
  rw [hentries] at hlists
  have hold : ∀ es : List Entry, (∀ e ∈ es, e ∈ p ++ a :: (F.flatten ++ z :: q)) →
      es.map (Entry.upTo g.strand.size) = es := by
    intro es hes
    exact map_upTo fun e he => hlists.linked.lt_size (Entry.mem_names (hes e he))
  cases hdir : F.hasDirective with
  | true =>
    have hsome : g.strand.directiveBetween (some a.name) (some z.name) ≠ none := by
      rw [Ne, directiveBetween_eq_none_iff hlists, ← Forest.hasDirective_eq_false, hdir]
      exact Bool.noConfusion
    obtain ⟨i, hi⟩ := Option.ne_none_iff_exists'.1 hsome
    obtain ⟨hstrand, hpairs⟩ := scan_blocked (r := ⟨some a.name, some z.name, nest⟩) hi
    rw [Forest.reference, Forest.referencePairs, if_pos hdir, if_pos hdir, hstrand, inserted, hpairs, hentries]
    exact ⟨hlinked, hold _ fun e he => he, rfl, fun _ => rfl⟩
  | false =>
    have hfits := hnests.fits (Forest.hasDirective_eq_false.1 hdir)
    obtain ⟨out, hscanned, hbecame⟩ := scan_scanned nest hlists hfits hcode hz
    have hgrouped : Forest.Grouped none false .nil F out := by
      cases hscanned with
      | blocked hnot => exact absurd (Forest.hasDirective_eq_false.1 hdir) hnot
      | grouped _ hgrouped => exact hgrouped
    obtain ⟨new, hpairs, hsize, hsame⟩ := Extends.scan g ⟨some a.name, some z.name, nest⟩
    generalize g.scan ⟨some a.name, some z.name, nest⟩ = g' at hbecame hpairs hsize hsame ⊢
    have hlists' : g'.strand.Lists (p ++ a :: (out.flatten ++ z :: q)) := by simpa using hbecame.lists
    have hagrees := agrees_of_lists hlists hlists' hfits hgrouped
    -- All the lexemes that have come are in the region.
    have hnew : new.length = F.referencePairs g.strand.size := by
      have hlen := hagrees.length
      have hbefore := hlists.linked.length_eq
      have hafter := hlists'.linked.length_eq
      simp only [Entry.names, List.length_map, List.length_append, List.length_cons] at hbefore hafter
      rw [Forest.referencePairs, hdir, if_neg Bool.false_ne_true, Reference.pairCount]
      rw [Forest.nil_append] at hlen
      omega
    refine ⟨hlists'.linked.wellLinked, ?_, ?_, ?_⟩
    · have hlast : z.upTo g.strand.size = z := upTo_of_lt (hlists.linked.lt_size (Entry.mem_names (by simp)))
      have hfirst : a.upTo g.strand.size = a := upTo_of_lt (hlists.linked.lt_size (Entry.mem_names (by simp)))
      have hlisting := hagrees.listing
      rw [hlists'.entries_eq, Forest.reference, hdir, if_neg Bool.false_ne_true, Reference.region]
      simp only [List.map_append, List.map_cons]
      rw [hlisting, hold p (by simp +contextual), hold q (by simp +contextual), hfirst, hlast]
    · rw [inserted, inserted, hpairs, List.length_append, hnew, Nat.add_comm]
    · intro hnone
      exact hsame (List.length_eq_zero_iff.1 (hnew.trans hnone))

namespace ReferenceAux

open Forest Grouping

/-- A lexeme of a grouping as an entry. -/
def entryAt (g : Grouping) (i : Nat) : Entry := ⟨i, (g.strand.lexeme (some i)).bare⟩

/-- The condition `if(a&&f(b==c,d)||e==h/**/)`, without its spelling. -/
def callCondition : Grouping := start (.ofLexemes "c"
  [{ kind := .ifWord, text := [] }, { kind := .opening .condition, text := [] }, { kind := .word, text := [], depth := 1 },
    { kind := .logical, text := [], depth := 1 }, { kind := .callName, text := [], depth := 1 },
    { kind := .opening .call, text := [], depth := 1 }, { kind := .word, text := [], depth := 2 },
    { kind := .compare, text := [], depth := 2 }, { kind := .word, text := [], depth := 2 },
    { kind := .comma, text := [], depth := 2 }, { kind := .word, text := [], depth := 2 },
    { kind := .closing .call, text := [], depth := 1 }, { kind := .logical, text := [], depth := 1 },
    { kind := .word, text := [], depth := 1 }, { kind := .compare, text := [], depth := 1 },
    { kind := .word, text := [], depth := 1 }, { kind := .comment, text := [], depth := 1 },
    { kind := .closing .condition, text := [] }])

/-- What the condition holds. -/
def callForest : Forest :=
  let e := entryAt callCondition
  leaf (e 2) <| leaf (e 3) <| leaf (e 4) <|
    group (e 5) (leaf (e 6) <| leaf (e 7) <| leaf (e 8) <| leaf (e 9) <| leaf (e 10) nil) (e 11) <|
    leaf (e 12) <| leaf (e 13) <| leaf (e 14) <| leaf (e 15) <| leaf (e 16) nil

end ReferenceAux

open ReferenceAux in
/-- Of the arguments the first one is enclosed, and of the condition the last run, but not the comment behind it. -/
theorem Grouping.entries_scan_callCondition :
    Entry.names (callForest.reference 18) = [2, 3, 4, 5, 18, 6, 7, 8, 18, 9, 10, 11, 12, 18, 13, 14, 15, 18, 16] ∧
      (callCondition.scan ⟨some 1, some 17, 0⟩).inserted = 2 ∧
      (callCondition.scan ⟨some 1, some 17, 0⟩).strand.entries.map (Entry.upTo 18) =
        entryAt callCondition 0 :: entryAt callCondition 1 :: (callForest.reference 18 ++ [entryAt callCondition 17]) := by
  have hentries : callCondition.strand.entries =
      [entryAt callCondition 0] ++ entryAt callCondition 1 :: (callForest.flatten ++ entryAt callCondition 17 :: []) := by
    decide +kernel
  obtain ⟨-, hlisting, hinserted, -⟩ := entries_scan callCondition 0 (Strand.wellLinked_ofLexemes _ _) hentries
    (by decide +kernel) (by decide +kernel) (by decide +kernel : callForest.Nests 1)
  exact ⟨by decide +kernel, hinserted.trans (by decide +kernel), hlisting⟩

namespace ReferenceAux

open Forest Grouping

/-- The tokens of a condition with a line break in it, `if(a==b` and `||c)d;`. -/
def brokenTokens : List Token :=
  [⟨0, .keyword, Text.ofString "if"⟩, ⟨2, .punctuation, Text.ofString "("⟩, ⟨3, .name, Text.ofString "a"⟩,
    ⟨4, .operator, Text.ofString "=="⟩, ⟨6, .name, Text.ofString "b"⟩, ⟨7, .whitespace, [.char '\n']⟩,
    ⟨8, .operator, Text.ofString "||"⟩, ⟨10, .name, Text.ofString "c"⟩, ⟨11, .punctuation, Text.ofString ")"⟩,
    ⟨12, .name, Text.ofString "d"⟩, ⟨13, .punctuation, Text.ofString ";"⟩]

/-- The condition that those tokens are of. -/
def brokenCondition : Grouping :=
  start (({ text := brokenTokens.flatMap (·.text), tabSize := 8, language := "c" } : Source).read brokenTokens)

/-- What stands in front of its line break. -/
def brokenForest : Forest :=
  let e := entryAt brokenCondition
  leaf (e 2) <| leaf (e 3) <| leaf (e 4) nil

end ReferenceAux

open ReferenceAux in
/-- A scan passes over line breaks, so one that is to end at a line break goes on behind it. Of `if(a==b`, line break, `||c)d;` it
encloses `a==b`, which is the only run up to the line break. -/
theorem Grouping.not_entries_scan : ¬∀ (g : Grouping) (nest : Nat) (p q : List Entry) (a z : Entry) (F : Forest) (d : Int),
    g.strand.WellLinked → g.strand.entries = p ++ a :: (F.flatten ++ z :: q) → a.inDirective = false → z.inDirective = false →
      F.Nests d → (g.scan ⟨some a.name, some z.name, nest⟩).inserted = g.inserted + F.referencePairs g.strand.size := by
  intro h
  have hinserted := h brokenCondition 0 [entryAt brokenCondition 0] ([6, 7, 8, 9, 10].map (entryAt brokenCondition))
    (entryAt brokenCondition 1) (entryAt brokenCondition 5) brokenForest 1 (Strand.wellLinked_ofLexemes _ _)
    (by decide +kernel) (by decide +kernel) (by decide +kernel) (by decide +kernel)
  have hone : (brokenCondition.scan ⟨some 1, some 5, 0⟩).inserted = 1 := by decide +kernel
  have hnone : brokenCondition.inserted + brokenForest.referencePairs brokenCondition.strand.size = 0 := by decide +kernel
  exact absurd (hone.symm.trans (hinserted.trans hnone)) (by decide)

end CodeGroom
