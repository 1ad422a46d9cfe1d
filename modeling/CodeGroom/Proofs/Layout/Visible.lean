import CodeGroom.Proofs.Format.LineEnds
import CodeGroom.Proofs.Grouping.Inserted
import CodeGroom.Proofs.Layout.Written
import Mathlib.Data.List.Flatten

/-!
# What is written besides white space

Whatever the columns are, the symbols of the lexemes are written in their order, with white space on the same line in front of each.
So parentheses are all that is written beyond the lexemes of the source, and a carriage return stands in front of a line feed only
where one stood in the source.
-/

namespace CodeGroom

namespace Text

/-- The symbols of a text that are no white space. -/
def visible (t : Text) : Text := t.filter (!·.isBlank)

@[simp] theorem visible_append (t u : Text) : visible (t ++ u) = visible t ++ visible u := List.filter_append _ _

/-- Nothing of a gap is visible. -/
theorem IsGap.visible {t : Text} (h : t.IsGap) : visible t = [] := by
  refine List.filter_eq_nil_iff.2 ?_
  intro x hx
  simp [(h x hx).1]

/-- No line ends in a gap. -/
theorem IsGap.count {t : Text} (h : t.IsGap) : t.count lineFeed = 0 := List.count_eq_zero.2 h.lineFeed_notMem

/-- Blanks are a gap. -/
theorem isGap_copies {x : Symbol} (hblank : x.isBlank = true) (hx : x ≠ lineFeed) (n : Int) : IsGap (copies n x) := by
  intro y hy
  rw [List.eq_of_mem_replicate hy]
  exact ⟨hblank, hx⟩

/-- Whether what follows a text stands directly behind a carriage return. -/
def behindReturn (behind : Bool) (t : Text) : Bool := (t.getLast?.map (decide <| · = carriageReturn)).getD behind

/-- Once there is a symbol it does not matter what was in front of it. -/
theorem behindReturn_cons (behind : Bool) (x : Symbol) (t : Text) :
    behindReturn behind (x :: t) = behindReturn (x = carriageReturn) t := by
  cases t using List.reverseRecOn with
  | nil => rfl
  | append_singleton t y => rw [behindReturn, behindReturn, ← List.cons_append, List.getLast?_concat, List.getLast?_concat]; rfl

/-- Behind a text that ends with some symbol it does not matter what the text stands behind. -/
theorem behindReturn_append_of_ne_nil (b b' : Bool) (t t' : Text) {u : Text} (hu : u ≠ []) :
    behindReturn b (t ++ u) = behindReturn b' (t' ++ u) := by
  cases u using List.reverseRecOn with
  | nil => exact absurd rfl hu
  | append_singleton u x => rw [behindReturn, behindReturn, ← List.append_assoc, ← List.append_assoc, List.getLast?_concat,
      List.getLast?_concat]; rfl

/-- A text without carriage returns is not what a carriage return comes from. -/
theorem of_behindReturn {b : Bool} {t : Text} (ht : carriageReturn ∉ t) (h : behindReturn b t = true) : b = true := by
  cases t using List.reverseRecOn with
  | nil => exact h
  | append_singleton t x =>
    rw [behindReturn, List.getLast?_concat] at h
    obtain rfl : x = carriageReturn := by simpa using h
    simp at ht

/-- It ends so all the more when it starts so. -/
theorem behindReturn_mono {b b' : Bool} (hb : b = true → b' = true) (t : Text) (h : behindReturn b t = true) :
    behindReturn b' t = true := by
  cases t using List.reverseRecOn with
  | nil => exact hb h
  | append_singleton t x => rwa [behindReturn, List.getLast?_concat] at h ⊢

/-- A text without a line feed leaves all returns to what comes behind it. -/
theorem returnsFrom_append {u : Text} (hu : lineFeed ∉ u) (b : Bool) (t : Text) :
    returnsFrom b (u ++ t) = returnsFrom (behindReturn b u) t := by
  induction u generalizing b with
  | nil => rfl
  | cons x u ih =>
    simp only [List.mem_cons, not_or] at hu
    rw [List.cons_append, returnsFrom_cons_of_ne (Ne.symm hu.1), ih hu.2, behindReturn_cons]

/-- Behind the last line feed nothing counts. -/
theorem returnsFrom_append_of_notMem {u : Text} (hu : lineFeed ∉ u) (b : Bool) (t : Text) :
    returnsFrom b (t ++ u) = returnsFrom b t := by
  induction t generalizing b with
  | nil =>
    have hnone := returnsFrom_append hu b []
    rwa [List.append_nil] at hnone
  | cons x t ih =>
    rw [List.cons_append, returnsFrom, returnsFrom, ih, ih]

/-- Of several line feeds only the first one can have a return. -/
theorem returnsFrom_lineFeeds (n : Nat) (b : Bool) (t : Text) :
    returnsFrom b (List.replicate (n + 1) lineFeed ++ t) = b :: (List.replicate n false ++ returnsFrom false t) := by
  induction n generalizing b with
  | zero => simp
  | succ n ih =>
    rw [List.replicate_succ, List.cons_append, returnsFrom_cons_lineFeed, ih, List.replicate_succ, List.cons_append]

/-- A list says yes only where another one of the same length does. -/
def Fewer (us vs : List Bool) : Prop := List.Forall₂ (fun u v => u = true → v = true) us vs

/-- What says yes more often than another list adds nothing that the other does not. -/
theorem Fewer.zipWith_or_eq {given us vs : List Bool} (h : Fewer us vs) (hgiven : given = List.zipWith (· || ·) given vs) :
    List.zipWith (· || ·) given us = given := by
  induction h generalizing given with
  | nil =>
    rw [List.zipWith_nil_right] at hgiven ⊢
    exact hgiven.symm
  | @cons u v us vs huv _ ih =>
    cases given with
    | nil => rfl
    | cons b given =>
      obtain ⟨hb, hrest⟩ := List.cons.inj hgiven
      rw [List.zipWith_cons_cons, ih hrest]
      refine congrArg (· :: given) ?_
      cases b with
      | true => rfl
      | false =>
        have hv : v = false := hb.symm
        have hu : u ≠ true := fun hu => by simp [huv hu] at hv
        simpa using hu

end Text

open Text

namespace Lexeme.Sound

variable {x : Lexeme}

/-- A sound line break is made of line feeds. -/
theorem exists_symbols (hx : x.Sound) (hnl : x.kind = .newline) : ∃ k : Nat, x.symbols = List.replicate (k + 1) lineFeed := by
  obtain ⟨k, hk⟩ := hx.exists_breaks hnl
  exact ⟨k, by rw [symbols_of_newline hnl, hk]; rfl⟩

/-- Any other sound lexeme holds none. -/
theorem lineFeed_notMem_spelled (hx : x.Sound) (hne : x.kind ≠ .newline) : lineFeed ∉ x.spelled := by
  rw [spelled, symbols_of_ne_newline hne, List.mem_append, not_or]
  exact ⟨hx.gap.lineFeed_notMem, hx.text hne⟩

end Lexeme.Sound

namespace Ruling

variable (r : Ruling) {x : Lexeme} {xs : List Lexeme}

/-- What fills a line up is a gap. -/
theorem isGap_filling (start stop : Int) : IsGap (r.filling start stop) := by
  have hblanks := isGap_copies (x := .char ' ') (by decide) (by decide)
  unfold filling
  split_ifs
  · exact (isGap_copies (x := tab) (by decide) (by decide) _).append (hblanks _)
  · exact hblanks _

/-- It holds no carriage return. -/
theorem carriageReturn_notMem_filling (start stop : Int) : carriageReturn ∉ r.filling start stop := by
  have hcopies : ∀ {y : Symbol} (n : Int), y ≠ carriageReturn → carriageReturn ∉ copies n y := by
    intro y n hy hmem
    exact hy (List.eq_of_mem_replicate hmem).symm
  unfold filling
  split_ifs
  · rw [List.mem_append, not_or]
    exact ⟨hcopies _ (by decide), hcopies _ (by decide)⟩
  · exact hcopies _ (by decide)

/-- What is written in front of a lexeme is a gap. -/
theorem isGap_gapBefore (start : Int) (hx : x.gap.IsGap) : IsGap (r.gapBefore start x) := by
  unfold gapBefore
  split_ifs
  · exact hx
  · exact r.isGap_filling _ _
  · exact .nil

/-- The gap in front of a line break is kept. -/
theorem gapBefore_of_newline (start : Int) (hx : x.kind = .newline) : r.gapBefore start x = x.gap := by
  rw [gapBefore, Lexeme.isNewline_iff.2 hx, Bool.true_or, if_pos rfl]

/-- Only line breaks are written with line feeds. -/
theorem lineFeed_notMem_word (start : Int) (hx : x.Sound) (hne : x.kind ≠ .newline) :
    lineFeed ∉ r.gapBefore start x ++ x.symbols := by
  rw [Lexeme.symbols_of_ne_newline hne, List.mem_append, not_or]
  exact ⟨(r.isGap_gapBefore start hx.gap).lineFeed_notMem, hx.text hne⟩

/-- Behind a parenthesis there is no carriage return. -/
theorem behindReturn_parenthesis (start : Int) (hx : x.IsParenthesis) {b : Bool} :
    behindReturn b (r.gapBefore start x ++ x.symbols) = false := by
  rw [Lexeme.symbols_of_ne_newline hx.kind_ne]
  rcases hx.text with ht | ht <;> rw [ht, behindReturn, List.getLast?_concat] <;> rfl

/-- Behind a word that is written there is a carriage return only if there was one. -/
theorem behindReturn_word (start : Int) (hne : x.kind ≠ .newline) (hread : x.text = [] → x.gap = []) {b b' : Bool}
    (hb : b = true → b' = true) (h : behindReturn b (r.gapBefore start x ++ x.symbols) = true) :
    behindReturn b' x.spelled = true := by
  rw [Lexeme.symbols_of_ne_newline hne] at h
  rw [Lexeme.spelled, Lexeme.symbols_of_ne_newline hne]
  by_cases ht : x.text = []
  · -- A lexeme without symbols has no gap in the source, and what is filled in for it are tabs and blanks.
    have hfilled : carriageReturn ∉ r.gapBefore start x := by
      unfold gapBefore
      split_ifs
      · rw [hread ht]
        exact List.not_mem_nil
      · exact r.carriageReturn_notMem_filling _ _
      · exact List.not_mem_nil
    rw [ht, List.append_nil] at h
    rw [ht, hread ht]
    exact hb (of_behindReturn hfilled h)
  · rwa [behindReturn_append_of_ne_nil b b' _ x.gap ht] at h

/-- Besides white space, what is written is the symbols of the lexemes. -/
theorem visible_written (hxs : ∀ x ∈ xs, x.Sound) (start : Int) :
    visible (r.written start xs) = visible (xs.flatMap (·.symbols)) := by
  induction xs generalizing start with
  | nil => rfl
  | cons x xs ih =>
    have hgap := (r.isGap_gapBefore start (hxs x List.mem_cons_self).gap).visible
    rw [written, visible_append, visible_append, hgap, ih (fun y hy => hxs y (List.mem_cons_of_mem _ hy)), List.flatMap_cons,
      visible_append, List.nil_append]

/-- As many lines are written as the lexemes hold. -/
theorem count_written (hxs : ∀ x ∈ xs, x.Sound) (start : Int) :
    (r.written start xs).count lineFeed = (xs.flatMap (·.symbols)).count lineFeed := by
  induction xs generalizing start with
  | nil => rfl
  | cons x xs ih =>
    have hgap := (r.isGap_gapBefore start (hxs x List.mem_cons_self).gap).count
    rw [written, List.count_append, List.count_append, hgap, ih (fun y hy => hxs y (List.mem_cons_of_mem _ hy)),
      List.flatMap_cons, List.count_append, Nat.zero_add]

end Ruling

variable {xs : List Lexeme}

/-- What is visible of a spelling are the symbols of its lexemes. -/
theorem visible_spelling (hxs : ∀ x ∈ xs, x.Sound) : visible (spelling xs) = visible (xs.flatMap (·.symbols)) := by
  induction xs with
  | nil => rfl
  | cons x xs ih =>
    rw [spelling_cons, Lexeme.spelled, visible_append, visible_append, (hxs x List.mem_cons_self).gap.visible,
      ih (fun y hy => hxs y (List.mem_cons_of_mem _ hy)), List.flatMap_cons, visible_append, List.nil_append]

/-- As many lines are spelled as the lexemes hold. -/
theorem count_spelling (hxs : ∀ x ∈ xs, x.Sound) : (spelling xs).count lineFeed = (xs.flatMap (·.symbols)).count lineFeed := by
  induction xs with
  | nil => rfl
  | cons x xs ih =>
    rw [spelling_cons, Lexeme.spelled, List.count_append, List.count_append, (hxs x List.mem_cons_self).gap.count,
      ih (fun y hy => hxs y (List.mem_cons_of_mem _ hy)), List.flatMap_cons, List.count_append, Nat.zero_add]

namespace Entry

/-- A listing of lexemes as reading leaves them, which are named below `n`, and of parentheses inserted among them. -/
structure Mixed (n : Nat) (es : List Entry) : Prop where
  sound : ∀ e ∈ es, e.lexeme.Sound
  read : ∀ e ∈ es, e.name < n → e.lexeme.text = [] → e.lexeme.gap = []
  inserted : ∀ e ∈ es, n ≤ e.name → e.lexeme.IsParenthesis

variable {n : Nat} {es : List Entry} {e : Entry}

/-- The rest of a mixed listing is one. -/
theorem Mixed.tail (h : Mixed n (e :: es)) : Mixed n es where
  sound u hu := h.sound u (List.mem_cons_of_mem _ hu)
  read u hu := h.read u (List.mem_cons_of_mem _ hu)
  inserted u hu := h.inserted u (List.mem_cons_of_mem _ hu)

/-- The lexemes of a listing that are named below `n`. -/
def readBelow (n : Nat) (es : List Entry) : List Lexeme := lexemes (es.filter (·.name < n))

theorem readBelow_cons_of_lt (h : e.name < n) : readBelow n (e :: es) = e.lexeme :: readBelow n es := by
  rw [readBelow, List.filter_cons_of_pos (by simpa using h)]
  rfl

theorem readBelow_cons_of_le (h : n ≤ e.name) : readBelow n (e :: es) = readBelow n es := by
  rw [readBelow, List.filter_cons_of_neg (by simpa using h), readBelow]

/-- The symbols of the lexemes that were read are among those of all. -/
theorem sublist_flatMap_readBelow (n : Nat) (es : List Entry) :
    ((readBelow n es).flatMap (·.symbols)).Sublist ((lexemes es).flatMap (·.symbols)) :=
  (List.filter_sublist.map _).flatMap _

/-- A carriage return is written in front of a line feed only where one stands in what was read. -/
theorem Mixed.returnsFrom_written (r : Ruling) (h : Mixed n es) (start : Int) {b b' : Bool} (hb : b = true → b' = true) :
    Fewer (returnsFrom b (r.written start (lexemes es))) (returnsFrom b' (spelling (readBelow n es))) := by
  induction es generalizing start b b' with
  | nil => exact .nil
  | cons e es ih =>
    have hsound := h.sound e List.mem_cons_self
    rw [lexemes_cons, Ruling.written]
    by_cases hnew : n ≤ e.name
    · have hparen := h.inserted e List.mem_cons_self hnew
      rw [returnsFrom_append (r.lineFeed_notMem_word start hsound hparen.kind_ne), r.behindReturn_parenthesis start hparen,
        readBelow_cons_of_le hnew]
      exact ih h.tail _ fun hfalse => by cases hfalse
    · have hold := Nat.lt_of_not_le hnew
      rw [readBelow_cons_of_lt hold, spelling_cons]
      by_cases hnl : e.lexeme.kind = .newline
      · obtain ⟨k, hsymbols⟩ := hsound.exists_symbols hnl
        rw [r.gapBefore_of_newline start hnl, Lexeme.spelled, hsymbols, List.append_assoc, List.append_assoc,
          returnsFrom_append hsound.gap.lineFeed_notMem, returnsFrom_append hsound.gap.lineFeed_notMem, returnsFrom_lineFeeds,
          returnsFrom_lineFeeds]
        refine .cons (behindReturn_mono hb _) (List.rel_append (List.forall₂_same.2 fun _ _ h => h) ?_)
        exact ih h.tail _ id
      · rw [returnsFrom_append (r.lineFeed_notMem_word start hsound hnl), returnsFrom_append (hsound.lineFeed_notMem_spelled hnl)]
        exact ih h.tail _ (r.behindReturn_word start hnl (h.read e List.mem_cons_self hold) hb)

end Entry

end CodeGroom
