import CodeGroom.Proofs.Format.RoundTrip

/-!
# Line ends put back

Putting the ends of lines back is a walk through the text: where a line had a carriage return, one is put in front of the line feed.
It adds white space only, and a line gets a second carriage return only where one is put back behind another.
-/

namespace CodeGroom

namespace Text

/-- For each line feed whether a carriage return stands directly in front of it; the first symbol stands behind one if `behind`. -/
def returnsFrom : Bool → Text → List Bool
  | _, [] => []
  | behind, x :: t => if x = lineFeed then behind :: returnsFrom false t else returnsFrom (x = carriageReturn) t

/-- Puts a carriage return in front of each line feed for which the list says so. Symbols may carry more than themselves. -/
def putBack {α : Type} (symbolOf : α → Symbol) (ret : α) : List Bool → List α → List α
  | _, [] => []
  | returns, x :: xs =>
    if symbolOf x = lineFeed then
      (if returns.headD false then [ret, x] else [x]) ++ putBack symbolOf ret returns.tail xs
    else x :: putBack symbolOf ret returns xs

variable {α β : Type} {behind : Bool} {t u : Text}

@[simp] theorem returnsFrom_cons_lineFeed (behind : Bool) (t : Text) :
    returnsFrom behind (lineFeed :: t) = behind :: returnsFrom false t := if_pos rfl

/-- A symbol that ends no line is passed over. -/
theorem returnsFrom_cons_of_ne {x : Symbol} (hx : x ≠ lineFeed) (behind : Bool) (t : Text) :
    returnsFrom behind (x :: t) = returnsFrom (x = carriageReturn) t := if_neg hx

section PutBack

variable {symbolOf : α → Symbol} {ret x : α}

theorem putBack_cons_of_ne (hx : symbolOf x ≠ lineFeed) (returns : List Bool) (xs : List α) :
    putBack symbolOf ret returns (x :: xs) = x :: putBack symbolOf ret returns xs := if_neg hx

/-- A return is put in front of a line feed that had one. -/
theorem putBack_true (hx : symbolOf x = lineFeed) (returns : List Bool) (xs : List α) :
    putBack symbolOf ret (true :: returns) (x :: xs) = ret :: x :: putBack symbolOf ret returns xs := if_pos hx

/-- None is put in front of a line feed that had none. -/
theorem putBack_false (hx : symbolOf x = lineFeed) (returns : List Bool) (xs : List α) :
    putBack symbolOf ret (false :: returns) (x :: xs) = x :: putBack symbolOf ret returns xs := if_pos hx

end PutBack

/-- The lines of a text end with carriage returns as its line feeds stand behind them. -/
theorem returnsFrom_eq (hu : lineFeed ∉ u) (t : Text) :
    Format.carriageReturns (lines (u ++ t)) = returnsFrom (u.getLast? = some carriageReturn) t := by
  induction t generalizing u with
  | nil =>
    obtain ⟨m, ls, hnil, hlines⟩ := lines_append_of_notMem hu []
    obtain ⟨rfl, rfl⟩ := List.cons.inj hnil
    rw [hlines]
    rfl
  | cons x t ih =>
    by_cases hx : x = lineFeed
    · subst hx
      obtain ⟨m, ls, hnil, hlines⟩ := lines_append_of_notMem hu (lineFeed :: t)
      rw [lines_cons_lineFeed] at hnil
      obtain ⟨rfl, rfl⟩ := List.cons.inj hnil
      have hrest := ih (u := []) List.not_mem_nil
      rw [List.nil_append] at hrest
      rw [hlines, List.append_nil, returnsFrom_cons_lineFeed, Format.carriageReturns, List.dropLast_cons_of_ne_nil (lines_ne_nil t),
        List.map_cons, ← Format.carriageReturns, hrest]
      rfl
    · have hu' : lineFeed ∉ u ++ [x] := by
        simp only [List.mem_append, List.mem_singleton, not_or]
        exact ⟨hu, Ne.symm hx⟩
      have hrest := ih hu'
      have hlast : decide ((u ++ [x]).getLast? = some carriageReturn) = decide (x = carriageReturn) := by
        rw [List.getLast?_concat]
        exact decide_eq_decide.2 (by rw [Option.some.injEq])
      rw [List.append_assoc, List.singleton_append, hlast] at hrest
      rw [hrest, returnsFrom_cons_of_ne hx]

/-- The returns of a text are told line by line. -/
theorem carriageReturns_lines (t : Text) : Format.carriageReturns t.lines = returnsFrom false t :=
  returnsFrom_eq (u := []) List.not_mem_nil t

/-- Each line feed has a return or not. -/
theorem length_returnsFrom (behind : Bool) (t : Text) : (returnsFrom behind t).length = t.count lineFeed := by
  induction t generalizing behind with
  | nil => rfl
  | cons x t ih =>
    by_cases hx : x = lineFeed
    · rw [hx, returnsFrom_cons_lineFeed, List.length_cons, ih, List.count_cons_self]
    · rw [returnsFrom_cons_of_ne hx, ih, List.count_cons_of_ne hx]

/-- Carriage returns that are put back stand where they are put, besides those that were there. -/
theorem returnsFrom_putBack {returns : List Bool} (h : returns.length = t.count lineFeed) :
    returnsFrom behind (putBack id carriageReturn returns t) = List.zipWith (· || ·) returns (returnsFrom behind t) := by
  have hfeed : id lineFeed = lineFeed := rfl
  induction t generalizing returns behind with
  | nil =>
    obtain rfl := List.length_eq_zero_iff.1 h
    rfl
  | cons x t ih =>
    by_cases hx : x = lineFeed
    · subst hx
      rw [List.count_cons_self] at h
      obtain ⟨b, returns, rfl⟩ := List.exists_cons_of_length_eq_add_one h
      have hrest : returnsFrom false (putBack id carriageReturn returns t) =
          List.zipWith (· || ·) returns (returnsFrom false t) := ih (Nat.succ.inj h)
      cases b with
      | true =>
        rw [putBack_true hfeed, returnsFrom_cons_of_ne (by decide), returnsFrom_cons_lineFeed, hrest, returnsFrom_cons_lineFeed]
        rfl
      | false =>
        rw [putBack_false hfeed, returnsFrom_cons_lineFeed, hrest, returnsFrom_cons_lineFeed]
        rfl
    · rw [List.count_cons_of_ne hx] at h
      rw [putBack_cons_of_ne hx, returnsFrom_cons_of_ne hx, ih h, returnsFrom_cons_of_ne hx]

/-- Symbols are put back alike whatever they carry. -/
theorem map_putBack (f : α → β) (symbolOf : β → Symbol) (ret : α) (returns : List Bool) (xs : List α) :
    (putBack (fun x => symbolOf (f x)) ret returns xs).map f = putBack symbolOf (f ret) returns (xs.map f) := by
  induction xs generalizing returns with
  | nil => rfl
  | cons x xs ih =>
    rw [putBack, List.map_cons, putBack]
    split_ifs <;> simp [ih]

/-- Taking symbols other than line feeds away leaves what is put back. -/
theorem filter_putBack {symbolOf : α → Symbol} {ret : α} {f : α → Bool} (hret : f ret = true) {xs : List α}
    (hxs : ∀ x ∈ xs, symbolOf x = lineFeed → f x = true) (returns : List Bool) :
    (putBack symbolOf ret returns xs).filter f = putBack symbolOf ret returns (xs.filter f) := by
  induction xs generalizing returns with
  | nil => rfl
  | cons x xs ih =>
    have hrest := ih fun y hy => hxs y (List.mem_cons_of_mem _ hy)
    by_cases hx : symbolOf x = lineFeed
    · have hfx := hxs x List.mem_cons_self hx
      rw [putBack, if_pos hx, List.filter_append, hrest, List.filter_cons_of_pos hfx, putBack, if_pos hx]
      split_ifs <;> simp [hret, hfx]
    · rw [putBack_cons_of_ne hx]
      cases hfx : f x with
      | true => rw [List.filter_cons_of_pos hfx, List.filter_cons_of_pos hfx, hrest, putBack_cons_of_ne hx]
      | false => rw [List.filter_cons_of_neg (by simp [hfx]), List.filter_cons_of_neg (by simp [hfx]), hrest]

/-- Putting returns back adds no line. -/
theorem count_putBack (returns : List Bool) (t : Text) :
    (putBack id carriageReturn returns t).count lineFeed = t.count lineFeed := by
  induction t generalizing returns with
  | nil => rfl
  | cons x t ih =>
    rw [putBack]
    split_ifs with hx hb
    · rw [List.count_append, ih, show x = lineFeed from hx]
      simp [carriageReturn, lineFeed, Nat.add_comm]
    · rw [List.count_append, ih, show x = lineFeed from hx]
      simp [Nat.add_comm]
    · rw [List.count_cons, List.count_cons, ih]

/-- What is put back is white space. -/
theorem filter_blank_putBack (returns : List Bool) (t : Text) :
    (putBack id carriageReturn returns t).filter (!·.isBlank) = t.filter (!·.isBlank) := by
  have hreturn : Symbol.isBlank carriageReturn = true := by decide
  have hfeed : Symbol.isBlank lineFeed = true := by decide
  induction t generalizing returns with
  | nil => rfl
  | cons x t ih =>
    rw [putBack]
    split_ifs with hx hb
    · rw [List.filter_append, ih, List.filter_cons, List.filter_cons]
      simp [hreturn, hfeed, show x = lineFeed from hx]
    · rw [List.filter_append, ih, List.filter_cons, List.filter_cons]
      simp [hfeed, show x = lineFeed from hx]
    · rw [List.filter_cons, List.filter_cons, ih]

end Text

namespace Format

open Text

/-- Putting line ends back is a walk through the text. -/
theorem restoreEnds_eq_putBack {t : Text} {replaced : List Text} (h : t.count lineFeed = (carriageReturns replaced).length) :
    restoreEnds t.lines replaced = putBack id carriageReturn (carriageReturns replaced) t := by
  have hfeed : id lineFeed = lineFeed := rfl
  unfold restoreEnds
  generalize carriageReturns replaced = returns at h
  induction t generalizing returns with
  | nil =>
    obtain rfl := List.length_eq_zero_iff.1 h.symm
    rfl
  | cons x t ih =>
    by_cases hx : x = lineFeed
    · subst hx
      rw [List.count_cons_self] at h
      obtain ⟨b, returns, rfl⟩ := List.exists_cons_of_length_eq_add_one h.symm
      have hrest := ih returns (Nat.succ.inj h)
      cases b with
      | true =>
        rw [lines_cons_lineFeed, putBack_true hfeed, ← hrest]
        rfl
      | false =>
        rw [lines_cons_lineFeed, putBack_false hfeed, ← hrest]
        rfl
    · rw [List.count_cons_of_ne hx] at h
      obtain ⟨l, ls, hlines, hcons⟩ := lines_cons hx t
      obtain ⟨e, es, hends⟩ := List.exists_cons_of_ne_nil (show returns.map lineEnd ++ [[]] ≠ [] by simp)
      have hrest := ih returns h
      rw [hlines, hends] at hrest
      rw [hcons, hends, putBack_cons_of_ne hx, ← hrest]
      rfl

/-- A file is the source that it is read as with the ends of its lines put back, and has as many line feeds. -/
theorem decode_eq_putBack (file : List UInt8) :
    decode file = putBack id carriageReturn (carriageReturns (decode file).lines) (sourceText file) ∧
      (sourceText file).count lineFeed = (carriageReturns (decode file).lines).length := by
  obtain ⟨ls, last, hgiven⟩ : ∃ ls last, (decode file).lines = ls ++ [last] := by
    rcases List.eq_nil_or_concat (decode file).lines with hnil | ⟨ls, last, hgiven⟩
    · exact absurd hnil (lines_ne_nil _)
    · exact ⟨ls, last, by rw [hgiven, List.concat_eq_append]⟩
  have hfeed : ∀ l ∈ ls ++ [last], lineFeed ∉ l := fun l hl => lineFeed_notMem_lines (hgiven ▸ hl)
  have hlines : (sourceText file).lines = ls.map FormatAux.stripReturn ++ [last] := by
    rw [sourceText, hgiven, FormatAux.sourceOf_concat]
    refine lines_unlines (by simp) ?_
    intro l hl
    rcases List.mem_append.1 hl with hl | hl
    · obtain ⟨m, hm, rfl⟩ := List.mem_map.1 hl
      exact FormatAux.lineFeed_notMem_stripReturn (hfeed m (List.mem_append_left _ hm))
    · exact hfeed l (List.mem_append_right _ hl)
  have hcount : (sourceText file).count lineFeed = (carriageReturns (decode file).lines).length := by
    rw [← length_returnsFrom false, ← carriageReturns_lines, hlines, hgiven]
    simp [carriageReturns]
  refine ⟨?_, hcount⟩
  rw [← restoreEnds_eq_putBack hcount, hlines, hgiven, FormatAux.restoreEnds_concat, ← hgiven, unlines_lines]

end Format

end CodeGroom
