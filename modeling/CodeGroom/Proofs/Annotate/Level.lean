import CodeGroom.Proofs.Annotate.Steps
import CodeGroom.Proofs.Annotate.Symbols
import CodeGroom.Proofs.Strand.Level

/-!
# Reading gives level strands

What is read is as deep as brackets are open, so depths change where brackets are opened and closed, and where a directive goes to
another branch. A directive always leaves a lexeme, provided that the source shows its `#` where the token has it.
-/

namespace CodeGroom

namespace Annotator

variable {src : Source} {a b : Annotator} {ts : List Token} {t : Token}

/-- Wherever a token is read as a directive, from a state on, the source shows its `#`. -/
def showsHashes (src : Source) : Annotator → List Token → Bool
  | _, [] => true
  | a, t :: ts => (!a.readsDirective t || src.text[hashPlace t]? = some (.char '#')) && showsHashes src (token src a t) ts

/-- Tokens that tile the rest of a source show its symbols. -/
theorem showsHashes_of_tiles {pos : Nat} (h : Token.Tiles pos (src.text.drop pos) ts) (a : Annotator) :
    showsHashes src a ts = true := by
  generalize hrest : src.text.drop pos = rest at h
  induction h generalizing a with
  | nil => rfl
  | @cons pos rest t ts hs _ ih =>
    have htail : src.text.drop t.stop = rest := by
      rw [Token.stop, hs, ← List.drop_drop, hrest, List.drop_left]
    rw [showsHashes, ih (token src a t) htail, Bool.and_true, Bool.or_eq_true, decide_eq_true_eq, Bool.not_eq_true']
    cases hreads : a.readsDirective t with
    | false => exact .inl rfl
    | true =>
      refine .inr ?_
      simp only [readsDirective, Bool.and_eq_true, decide_eq_true_eq] at hreads
      obtain ⟨u, hu, -, hlength⟩ := trimStart_append t.text
      obtain ⟨more, hmore⟩ := List.head?_eq_some_iff.1 hreads.1.1.2
      rw [hashPlace, ← hlength, hs, ← List.getElem?_drop, hrest, hu, hmore]
      simp

/-! ## What is read of a directive -/

/-- A line that starts with `#` has symbols that are no white space. -/
theorem trimEnd_hash_ne_nil (l : Text) : Text.trimEnd (.char '#' :: l) ≠ [] := by
  intro hnil
  obtain ⟨u, hu, hblank⟩ := trimEnd_append (.char '#' :: l)
  rw [hnil, List.nil_append] at hu
  have hhash := hblank (.char '#') (hu ▸ List.mem_cons_self)
  revert hhash
  decide

/-- Of a directive whose `#` the source shows, at least one lexeme is read. -/
theorem length_lt_directiveLines (src : Source) (l : Text) (ls : List Text) (pos : Nat) (a : Annotator) :
    a.lexemes.length < (directiveLines src pos ((.char '#' :: l) :: ls) a).lexemes.length := by
  have hindent : ((Symbol.char '#' :: l).takeWhile (·.isOneOf " \t")).length = 0 := by
    rw [List.takeWhile_cons_of_neg (by decide)]
    rfl
  unfold directiveLines
  dsimp only
  rw [hindent, List.drop_zero, if_neg (trimEnd_hash_ne_nil l)]
  split_ifs
  · obtain ⟨new, hnew, -⟩ := (addsDirective_directiveLines src ls (pos + (Symbol.char '#' :: l).length + 1)
      ((a.add src .directive (pos + 0) (Text.trimEnd (.char '#' :: l)) .nothing true).add src .newline
        (pos + (Symbol.char '#' :: l).length) [Text.lineFeed] .nothing true)).lexemes
    rw [hnew]
    simp only [add, List.length_append, List.length_cons]
    omega
  · simp [add]

theorem lexemes_directive (src : Source) (start : Nat) (a : Annotator) : (a.directive src start).lexemes =
    (directiveLines src start (Text.lines (src.text.drop start)) (a.enterDirective (wordAt src start))).lexemes := by
  unfold directive wordAt
  dsimp only
  split_ifs <;> rfl

/-- The lines from a `#` on. -/
theorem exists_lines_hash {start : Nat} (h : src.text[start]? = some (.char '#')) :
    ∃ l ls, Text.lines (src.text.drop start) = (.char '#' :: l) :: ls := by
  obtain ⟨rest, hrest⟩ : ∃ rest, src.text.drop start = .char '#' :: rest := by
    rw [← List.head?_drop] at h
    exact List.head?_eq_some_iff.1 h
  obtain ⟨l, ls, -, hlines⟩ := Text.lines_cons (x := .char '#') (by decide) rest
  exact ⟨l, ls, hrest ▸ hlines⟩

theorem exists_lexemes_directive {start : Nat} (h : src.text[start]? = some (.char '#')) (a : Annotator) :
    ∃ x new, (a.directive src start).lexemes = x :: (new ++ a.lexemes) ∧ ∀ y ∈ x :: new, y.kind.turns = true := by
  obtain ⟨l, ls, hlines⟩ := exists_lines_hash h
  obtain ⟨new, hnew, hdir⟩ :=
    (addsDirective_directiveLines src (Text.lines (src.text.drop start)) start (a.enterDirective (wordAt src start))).lexemes
  have hmore := length_lt_directiveLines src l ls start (a.enterDirective (wordAt src start))
  rw [← hlines, hnew, List.length_append] at hmore
  obtain ⟨x, new, rfl⟩ := List.exists_cons_of_ne_nil (l := new) (by rintro rfl; simp at hmore)
  refine ⟨x, new, ?_, fun y hy => ?_⟩
  · rw [lexemes_directive, hnew, (enterDirective_leaves (wordAt src start) a).1, List.cons_append]
  · rcases (hdir y hy).kind with hk | hk <;> rw [hk] <;> rfl

/-! ## Depths of what is read -/

/-- The lexemes read so far are level, and the newest one is as deep as brackets are open, unless depths may change there. -/
structure LevelUpTo (a : Annotator) : Prop where
  level : Lexeme.Level a.lexemes
  newest : ∀ x, a.lexemes.head? = some x → x.kind.turns = false → x.depth = a.depth

theorem levelUpTo_start : LevelUpTo {} := ⟨List.isChain_nil, fun _ hx => by cases hx⟩

/-- A lexeme is read: depths may change there, or it is as deep as brackets were open before and are now. -/
theorem LevelUpTo.read {x : Lexeme} (h : LevelUpTo a) (hlex : b.lexemes = x :: a.lexemes)
    (hx : x.kind.turns = true ∨ x.depth = a.depth ∧ b.depth = a.depth) : LevelUpTo b where
  level := by
    rw [hlex]
    refine List.isChain_cons.2 ⟨fun y hy hkx hky => ?_, h.level⟩
    rcases hx with hturns | ⟨hdepth, -⟩
    · rw [hturns] at hkx
      cases hkx
    · rw [hdepth, h.newest y hy hky]
  newest y hy hky := by
    rw [hlex] at hy
    obtain rfl := Option.some.inj hy
    rcases hx with hturns | ⟨hdepth, hsame⟩
    · rw [hturns] at hky
      cases hky
    · rw [hdepth, hsame]

/-- One lexeme is changed for another one of the same depth, where depths may change if they might before. -/
theorem LevelUpTo.replace {x y : Lexeme} {p q : List Lexeme} (h : LevelUpTo a) (hlex : a.lexemes = p ++ x :: q)
    (hlex' : b.lexemes = p ++ y :: q) (hopened : b.opened = a.opened) (hkind : y.kind.turns = false → x.kind.turns = false)
    (hdepth : y.depth = x.depth) : LevelUpTo b where
  level := by
    have hlevel := h.level
    rw [hlex] at hlevel
    rw [hlex']
    obtain ⟨hp, hxq, hlast⟩ := List.isChain_append.1 hlevel
    obtain ⟨hx, hq⟩ := List.isChain_cons.1 hxq
    refine List.isChain_append.2 ⟨hp, List.isChain_cons.2 ⟨fun z hz hy hkz => ?_, hq⟩, ?_⟩
    · rw [hdepth, hx z hz (hkind hy) hkz]
    · intro z hz w hw hkz hkw
      obtain rfl := Option.some.inj hw
      rw [hdepth, hlast z hz x rfl hkz (hkind hkw)]
  newest z hz hkz := by
    have hsame : b.depth = a.depth := congrArg List.length hopened
    rw [hsame]
    cases p with
    | nil =>
      rw [hlex'] at hz
      obtain rfl := Option.some.inj hz
      rw [hdepth]
      exact h.newest x (by rw [hlex]; rfl) (hkind hkz)
    | cons w p =>
      rw [hlex'] at hz
      exact h.newest z (by rw [hlex]; exact hz) hkz

theorem LevelUpTo.codeStep (h : LevelUpTo a) (hstep : CodeStep src a b) : LevelUpTo b := by
  cases hstep with
  | plain start text hk _ => exact h.read rfl (.inr ⟨rfl, rfl⟩)
  | opening bracket start text owner _ => exact h.read rfl (.inl rfl)
  | closing start text _ _ =>
    obtain ⟨x, k, hlex, hx, -⟩ := exists_closing src _ _ start text a
    exact h.read hlex (.inl (hx ▸ rfl))
  | @retyped kind hword hk =>
    obtain ⟨p, x, q, hlex, hlex', hx, -⟩ := exists_retype kind hword
    exact h.replace hlex hlex' rfl (fun _ => by rw [hx]; rfl) rfl
  | lengthened covered hlex _ => exact h.replace (p := []) hlex rfl rfl id rfl
  | asked questions => exact ⟨h.level, h.newest⟩

theorem LevelUpTo.directive {start : Nat} (h : LevelUpTo a) (hhash : src.text[start]? = some (.char '#')) :
    LevelUpTo (a.directive src start) := by
  obtain ⟨x, new, hlex, hturns⟩ := exists_lexemes_directive hhash a
  refine ⟨?_, fun y hy hk => ?_⟩
  · rw [hlex, ← List.cons_append]
    generalize x :: new = news at hturns
    induction news with
    | nil => exact h.level
    | cons y news ih =>
      refine List.isChain_cons.2 ⟨fun z _ => (Lexeme.levelWith_of_turns (hturns y List.mem_cons_self) z).1, ih fun z hz => ?_⟩
      exact hturns z (List.mem_cons_of_mem _ hz)
  · rw [hlex] at hy
    obtain rfl := Option.some.inj hy
    rw [hturns x List.mem_cons_self] at hk
    cases hk

theorem LevelUpTo.tokens (h : LevelUpTo a) (hts : ∀ t ∈ ts, t.text ≠ []) (hhashes : showsHashes src a ts = true) :
    LevelUpTo (a.tokens src ts) := by
  induction ts generalizing a with
  | nil => exact h
  | cons t ts ih =>
    rw [showsHashes, Bool.and_eq_true] at hhashes
    refine ih ?_ (fun u hu => hts u (List.mem_cons_of_mem _ hu)) hhashes.2
    rcases directive_or_steps_token src (hts t List.mem_cons_self) a with ⟨hreads, hread⟩ | hcode
    · rw [hread]
      refine h.directive ?_
      simpa [hreads] using hhashes.1
    · exact hcode.invariant (fun _ _ h hstep => h.codeStep hstep) h

end Annotator

namespace Source

/-- At every token that is read as a directive the source shows the `#` of the token: without one there is nothing to read as
a directive. -/
def Legible (src : Source) (ts : List Token) : Prop :=
  Annotator.showsHashes src {} (Token.mergeRuns (Token.cutLines ts)) = true

instance (src : Source) (ts : List Token) : Decidable (src.Legible ts) := inferInstanceAs (Decidable (_ = true))

/-- Tokens that tile a source are legible. -/
theorem legible_of_tiles {src : Source} {ts : List Token} (h : Token.Tiles 0 src.text ts) : src.Legible ts :=
  Annotator.showsHashes_of_tiles h.cutLines.mergeRuns {}

/-- A source is read into a level strand. -/
theorem level_read {src : Source} {ts : List Token} (h : src.Legible ts) : (src.read ts).Level := by
  have hlevel := (Annotator.levelUpTo_start.tokens Token.text_ne_nil_of_mem_pieces h).level.reverse
  rwa [Strand.Level, lexemes_read]

end Source

end CodeGroom
