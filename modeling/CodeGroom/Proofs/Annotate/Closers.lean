import CodeGroom.Proofs.Annotate.Partners

/-!
# Every closing bracket of a source

In the strand that a source is read into, a closing bracket answers the innermost open bracket that is written alike, and closes
nothing where there is none. A search for the partner of the opening bracket finds it unless a directive goes to another branch in
between.
-/

namespace CodeGroom

open Annotator

/-- On a strand whose lexemes are named by their places, the partner of an opening bracket is the first closing bracket of its
shape that is no deeper than it, if that is as deep. -/
theorem Strand.partner_of_between {s : Strand} {i j : Nat} {b : Bracket} (hs : s.WellLinked)
    (horder : s.order = List.range s.size) (hij : i < j) (hj : j < s.size) (hi : (s.lexeme (some i)).kind = .opening b)
    (hclosing : (s.lexeme (some j)).kind = .closing b) (hdepth : (s.lexeme (some j)).depth = (s.lexeme (some i)).depth)
    (hbetween : ∀ n, i < n → n < j → (s.lexeme (some i)).depth < (s.lexeme (some n)).depth) : s.partner (some i) = some j := by
  let entry (n : Nat) : Entry := ⟨n, (s.lexeme (some n)).bare⟩
  obtain ⟨m, hm⟩ : ∃ m, j = i + 1 + m := Nat.exists_eq_add_of_lt hij |>.imp fun _ h => by omega
  obtain ⟨r, hr⟩ : ∃ r, s.size = j + 1 + r := Nat.exists_eq_add_of_lt hj |>.imp fun _ h => by omega
  have hsplit : List.range s.size = List.range i ++ i :: (List.range' (i + 1) m ++ j :: List.range' (j + 1) r) := by
    have hsize : s.size = i + (m + (r + 1) + 1) := by omega
    rw [hsize, List.range_eq_range', List.range_eq_range', ← List.range'_append_1, Nat.zero_add, List.range'_succ,
      ← List.range'_append_1, List.range'_succ, ← hm]
  have hlists : s.Lists ((List.range i).map entry ++ entry i ::
      ((List.range' (i + 1) m).map entry ++ entry j :: (List.range' (j + 1) r).map entry)) := by
    have hentries := hs.lists
    rwa [Strand.entries, horder, hsplit, List.map_append, List.map_cons, List.map_append, List.map_cons] at hentries
  have hpartner : s.partner (some (entry i).name) = some j := by
    rw [hlists.partner_eq (b := b) hi, List.find?_append, List.find?_eq_none.2, Option.none_or, List.find?_cons_of_pos]
    · rfl
    · simp only [Bool.and_eq_true, decide_eq_true_eq]
      exact ⟨hclosing, hdepth⟩
    · intro e he
      obtain ⟨n, hn, rfl⟩ := List.mem_map.1 he
      obtain ⟨hin, hnj⟩ := List.mem_range'_1.1 hn
      have hdeeper : (entry i).depth < (entry n).depth := hbetween n hin (by omega)
      simp only [Bool.and_eq_true, decide_eq_true_eq, not_and]
      exact fun _ => by omega
  exact hpartner

namespace Source

variable {src : Source} {ts : List Token} {x : Lexeme} {p q : List Lexeme} {n : Nat} {a b : Annotator}

/-- While the tokens of a source are read, the step from `a` to `b` reads the lexeme that is named `n` in the end. -/
structure Reads (src : Source) (ts : List Token) (n : Nat) (a b : Annotator) : Prop where
  reached : Steps src {} a
  step : Step src a b
  rest : Steps src b (src.annotate ts)
  length_eq : a.lexemes.length = n
  lexemes_eq : b.lexemes = (src.read ts).lexeme (some n) :: a.lexemes

/-- A lexeme is named by the number of those in front of it. -/
theorem lexeme_read (h : (src.annotate ts).lexemes = p ++ x :: q) : (src.read ts).lexeme (some q.length) = x := by
  have hlt : q.length < (src.annotate ts).lexemes.reverse.length := by
    rw [h, List.length_reverse, List.length_append, List.length_cons]
    omega
  rw [read, Strand.lexeme_ofLexemes _ hlt]
  simp [h]

/-- As many lexemes are read as were annotated. -/
theorem size_read : (src.read ts).size = (src.annotate ts).lexemes.length := by
  rw [read, Strand.size_ofLexemes, List.length_reverse]

/-- They stand in the order in which they were read. -/
theorem order_read : (src.read ts).order = List.range (src.read ts).size := by
  rw [size_read, read, Strand.order_ofLexemes, List.length_reverse]

/-- The lexeme of a list that has some number of others behind it. -/
theorem exists_split_of_length (h : n < p.length) : ∃ newer z older, p = newer ++ z :: older ∧ older.length = n := by
  have hlt : p.length - 1 - n < p.length := by omega
  refine ⟨p.take (p.length - 1 - n), p[p.length - 1 - n], p.drop (p.length - 1 - n + 1), ?_, ?_⟩
  · rw [← List.drop_eq_getElem_cons hlt, List.take_append_drop]
  · rw [List.length_drop]
    omega

/-- A bracket of the strand with what was read before it. -/
theorem exists_split_of_bracket (h : ((src.read ts).lexeme (some n)).kind.isBracket = true) :
    ∃ p q, (src.annotate ts).lexemes = p ++ (src.read ts).lexeme (some n) :: q ∧ q.length = n := by
  have hn : n < (src.annotate ts).lexemes.length := by
    by_contra hge
    rw [← size_read, Strand.size] at hge
    rw [Strand.lexeme, Option.bind_some, Array.getElem?_eq_none (Nat.not_lt.1 hge)] at h
    cases h
  obtain ⟨p, x, q, hlex, rfl⟩ := exists_split_of_length hn
  exact ⟨p, q, by rw [lexeme_read hlex, hlex], rfl⟩

/-- What is read takes the reader to the end in steps. -/
theorem Reads.steps (h : src.Reads ts n a b) : Steps src a (src.annotate ts) := (Relation.ReflTransGen.single h.step).trans h.rest

/-- Every bracket is read by some step on the way to any moment behind it. -/
theorem exists_reads (hto : Steps src {} a) (hrest : Steps src a (src.annotate ts)) (hlex : a.lexemes = p ++ x :: q)
    (hx : x.kind.isBracket = true) : ∃ c d, src.Reads ts q.length c d ∧ Steps src d a := by
  obtain ⟨c, d, hc, hstep, hd, hdlex, rfl⟩ := exists_step_of_bracket hto hlex hx
  obtain ⟨p', hlex'⟩ := Steps.keeps hrest hlex hx
  exact ⟨c, d, ⟨hc, hstep, hd.trans hrest, rfl, by rw [hdlex, lexeme_read hlex']⟩, hd⟩

/-- As long as a bracket is open and no directive goes to another branch, all that is read is deeper than the bracket. -/
theorem Reads.between {i j : Nat} {c d : Annotator} {bracket : Bracket} (hopener : src.Reads ts i c d)
    (hcloser : src.Reads ts j a b) (hcode : ((src.read ts).lexeme (some j)).kind.isBracket = true) (hsteps : Steps src d a)
    (hsame : SameBranch d a) (hk : ((src.read ts).lexeme (some i)).kind = .opening bracket) (hopen : ∃ o ∈ a.opened, o.id = i) :
    i < j ∧ ∀ n, i < n → n < j → ((src.read ts).lexeme (some i)).depth < ((src.read ts).lexeme (some n)).depth := by
  obtain ⟨o, horigin⟩ := hopener.step.origin hopener.reached hopener.lexemes_eq hk
  obtain ⟨p, news, hlex, htrace, hcases⟩ := horigin.behind hsteps
  obtain ⟨news', htrace', hstays⟩ := hsame
  obtain rfl : news = news' := List.append_cancel_right (htrace.symm.trans htrace')
  have hlength := congrArg List.length hlex
  rw [hcloser.length_eq, List.length_append, List.length_cons, hopener.length_eq] at hlength
  refine ⟨by omega, ?_⟩
  intro n hin hnj
  rcases hcases hstays with ⟨-, hdeep⟩ | hgone
  · obtain ⟨newer, z, older, rfl, holder⟩ := exists_split_of_length (p := p) (n := n - (i + 1)) (by omega)
    obtain ⟨p', hlex'⟩ := Steps.keeps (p := []) hcloser.rest hcloser.lexemes_eq hcode
    have hz : (src.read ts).lexeme (some n) = z := by
      have hfinal : (src.annotate ts).lexemes = (p' ++ (src.read ts).lexeme (some j) :: newer) ++
          z :: (older ++ (src.read ts).lexeme (some i) :: c.lexemes) := by
        rw [hlex', hlex]
        simp
      have hlexeme := lexeme_read hfinal
      rw [List.length_append, List.length_cons, hopener.length_eq, holder] at hlexeme
      rw [← hlexeme]
      congr 2
      omega
    have hzdeep := hdeep z (by simp)
    have hdepth := horigin.within.depth
    rw [hz]
    omega
  · obtain ⟨u, hu, hid⟩ := hopen
    exact absurd (hid.trans (hopener.length_eq.symm.trans horigin.id_eq.symm)) (hgone u hu)

/-- The innermost bracket of some kind is the same one however it is found. -/
theorem innermost_unique {f : Opener → Bool} {inner inner' outer outer' : List Opener} {o o' : Opener}
    (h : inner ++ o :: outer = inner' ++ o' :: outer') (hinner : ∀ u ∈ inner, f u = false) (ho : f o = true)
    (hinner' : ∀ u ∈ inner', f u = false) (ho' : f o' = true) : o = o' ∧ outer = outer' := by
  have hdrop : ∀ {l r : List Opener} {u : Opener}, (∀ v ∈ l, f v = false) → f u = true →
      (l ++ u :: r).dropWhile (!f ·) = u :: r := by
    intro l r u hl hu
    exact dropWhile_eq_cons_iff.2 ⟨l, rfl, fun v hv => by simp [hl v hv], by simp [hu]⟩
  have heq := congrArg (List.dropWhile (!f ·)) h
  rw [hdrop hinner ho, hdrop hinner' ho'] at heq
  exact List.cons.inj heq

/-- Whatever the tokens are, every closing bracket is read by some step. Where no open bracket is written alike it closes nothing.
Else it closes the innermost such one and answers it; and if no directive between the two goes to another branch, all lexemes
between them are deeper and a search for the partner finds the closing bracket. -/
theorem closers_answer (src : Source) (ts : List Token) {j : Nat} {k : Bracket}
    (hk : ((src.read ts).lexeme (some j)).kind = .closing k) :
    (∃ a b, src.Reads ts j a b) ∧ ∀ a b, src.Reads ts j a b →
      ((∀ o ∈ a.opened, k.alike o.bracket = false) → b.opened = a.opened) ∧
      ∀ inner o outer, a.opened = inner ++ o :: outer → (∀ u ∈ inner, k.alike u.bracket = false) →
        k.alike o.bracket = true →
        b.opened = outer ∧ ((src.read ts).lexeme (some j)).Answers ((src.read ts).lexeme (some o.id)) ∧
        (∃ c d, src.Reads ts o.id c d ∧ Steps src d a) ∧
        ∀ c d, src.Reads ts o.id c d → Steps src d a → SameBranch d a →
          (∀ n, o.id < n → n < j →
            ((src.read ts).lexeme (some o.id)).depth < ((src.read ts).lexeme (some n)).depth) ∧
          (src.read ts).partner (some o.id) = some j := by
  have hbracket : ((src.read ts).lexeme (some j)).kind.isBracket = true := hk ▸ rfl
  obtain ⟨p, q, hfinal, rfl⟩ := exists_split_of_bracket hbracket
  refine ⟨?_, ?_⟩
  · obtain ⟨a, b, hreads, -⟩ := exists_reads (src.steps_annotate ts) .refl hfinal hbracket
    exact ⟨a, b, hreads⟩
  intro a b hreads
  cases hreads.step.closes hreads.lexemes_eq hk with
  | nothing hnone hopened _ =>
    refine ⟨fun _ => hopened, ?_⟩
    intro inner o outer hsplit _ halike
    rw [hnone o (by simp [hsplit])] at halike
    cases halike
  | @innermost inner' outer' o' hsplit' hinner' hshape hopened howner hwithin =>
    have hself : k.alike o'.bracket = true := hshape ▸ k.alike_self
    refine ⟨?_, ?_⟩
    · intro hnone
      rw [hnone o' (by simp [hsplit'])] at hself
      cases hself
    intro inner o outer hsplit hinner halike
    obtain ⟨rfl, rfl⟩ := innermost_unique (f := fun u => k.alike u.bracket) (hsplit.symm.trans hsplit') hinner halike hinner' hself
    obtain ⟨c₀, y, p₀, q₀, horigin, -, hlex⟩ :=
      founded hreads.reached a.opened List.mem_cons_self o outer (hsplit ▸ List.suffix_append inner _)
    have hy : y.kind.isBracket = true := horigin.kind ▸ rfl
    obtain ⟨p₁, hlex₁⟩ := Steps.keeps hreads.steps hlex hy
    have hopener : (src.read ts).lexeme (some o.id) = y := horigin.id_eq ▸ lexeme_read hlex₁
    have hclosing := hshape ▸ hk
    have hanswers : ((src.read ts).lexeme (some q.length)).Answers y :=
      Lexeme.answers_of_readWithin horigin.kind hclosing (howner.trans horigin.owner.symm) hwithin horigin.within
    refine ⟨hopened, hopener ▸ hanswers, ?_, ?_⟩
    · rw [horigin.id_eq]
      exact exists_reads hreads.reached hreads.steps hlex hy
    · intro c d hopens hsteps hsame
      have hkind : ((src.read ts).lexeme (some o.id)).kind = .opening o.bracket := hopener ▸ horigin.kind
      obtain ⟨hlt, hdeeper⟩ := hopens.between hreads hbracket hsteps hsame hkind ⟨o, by simp [hsplit], rfl⟩
      have hsize : q.length < (src.read ts).size := by
        rw [size_read, hfinal, List.length_append, List.length_cons]
        omega
      exact ⟨hdeeper, Strand.partner_of_between (Strand.wellLinked_ofLexemes _ _) order_read hlt hsize hkind hclosing
        (hopener ▸ hanswers.depth) hdeeper⟩

namespace ClosersAux

/-- A call with a square bracket that is left open. -/
def crossedSource : Source := { text := Text.ofString "f ( [ )" }

/-- The tokens in front of its round brackets. -/
def nameTokens : List Token := [⟨0, .name, Text.ofString "f"⟩, ⟨1, .text, Text.ofString " "⟩]

/-- The tokens between its round brackets. -/
def innerTokens : List Token :=
  [⟨3, .text, Text.ofString " "⟩, ⟨4, .operator, Text.ofString "["⟩, ⟨5, .text, Text.ofString " "⟩]

/-- All its tokens. -/
def crossedTokens : List Token :=
  nameTokens ++ ⟨2, .operator, Text.ofString "("⟩ :: (innerTokens ++ [⟨6, .operator, Text.ofString ")"⟩])

/-- The state in front of the opening round bracket. -/
def beforeOpener : Annotator := (({} : Annotator).tokens crossedSource nameTokens).retype .callName

/-- The state behind it. -/
def behindOpener : Annotator := beforeOpener.openBracket crossedSource .call 2 (Text.ofString "(") .callName

/-- The state in front of the closing round bracket. -/
def beforeCloser : Annotator := behindOpener.tokens crossedSource innerTokens

theorem steps_behindOpener : Steps crossedSource behindOpener beforeCloser := steps_of_tokens (by decide) _

theorem step_closer : Step crossedSource beforeCloser (crossedSource.annotate crossedTokens) := by
  have hread : crossedSource.annotate crossedTokens =
      beforeCloser.closeBracket crossedSource Bracket.isRound .paren 6 (Text.ofString ")") := by decide +kernel
  rw [hread]
  exact .code (.closing 6 _ (fun b => (Bracket.alike_of_round rfl b).symm) (by decide))

theorem reads_opener : crossedSource.Reads crossedTokens 1 beforeOpener behindOpener where
  reached := (steps_of_tokens (by decide) _).tail (.code (.retyped (by decide) rfl))
  step := .code (.opening .call 2 _ .callName (by decide))
  rest := steps_behindOpener.tail step_closer
  length_eq := by decide
  lexemes_eq := by decide +kernel

theorem reads_closer : crossedSource.Reads crossedTokens 3 beforeCloser (crossedSource.annotate crossedTokens) where
  reached := (reads_opener.reached.tail reads_opener.step).trans steps_behindOpener
  step := step_closer
  rest := .refl
  length_eq := by decide
  lexemes_eq := by decide +kernel

end ClosersAux

open ClosersAux in
theorem closers_answer_crossed : ((crossedSource.read crossedTokens).lexeme (some 3)).kind = .closing .call ∧
    (crossedSource.annotate crossedTokens).opened = [] ∧
    ((crossedSource.read crossedTokens).lexeme (some 3)).Answers ((crossedSource.read crossedTokens).lexeme (some 1)) ∧
    (crossedSource.read crossedTokens).partner (some 1) = some 3 := by
  have hk : ((crossedSource.read crossedTokens).lexeme (some 3)).kind = .closing .call := by decide +kernel
  obtain ⟨hopened, hanswers, -, hbetween⟩ := ((closers_answer crossedSource crossedTokens hk).2 _ _ reads_closer).2
    [⟨2, .square, .nothing⟩] ⟨1, .call, .callName⟩ [] (by decide) (by decide) (by decide)
  exact ⟨hk, hopened, hanswers, (hbetween _ _ reads_opener steps_behindOpener ⟨[], by decide, by simp⟩).2⟩

end Source

end CodeGroom
