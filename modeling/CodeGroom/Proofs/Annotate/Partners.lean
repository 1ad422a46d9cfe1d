import CodeGroom.Proofs.Annotate.Effects
import CodeGroom.Proofs.Annotate.Symbols
import CodeGroom.Proofs.Strand.Listing

/-!
# Closing brackets and what they close

Whatever the tokens of a source are, balanced or not, a closing bracket has the shape, the owner, the depths and the marks of the
opening bracket that it closes. The brackets below an open one never change as long as it is open, also where a directive brings
saved brackets back. While no directive goes to another branch, everything between the two is deeper, so that a search for the
partner of the opening bracket finds the closing one.
-/

namespace CodeGroom

/-- A closing bracket with what it shares with the opening bracket that it closes. -/
structure Lexeme.Answers (x y : Lexeme) : Prop where
  shape : ∃ b, y.kind = .opening b ∧ x.kind = .closing b
  owner : x.owner = y.owner
  depth : x.depth = y.depth
  braceDepth : x.braceDepth = y.braceDepth
  inCondition : x.marks.inCondition = y.marks.inCondition
  inCall : x.marks.inCall = y.marks.inCall

/-- Two brackets of one shape and owner, read while the same brackets were open. -/
theorem Lexeme.answers_of_readWithin {x y : Lexeme} {b : Bracket} {outer : List Opener} (hy : y.kind = .opening b)
    (hx : x.kind = .closing b) (howner : x.owner = y.owner) (hxo : x.ReadWithin outer) (hyo : y.ReadWithin outer) :
    x.Answers y where
  shape := ⟨b, hy, hx⟩
  owner := howner
  depth := hxo.depth.trans hyo.depth.symm
  braceDepth := hxo.braceDepth.trans hyo.braceDepth.symm
  inCondition := hxo.inCondition.trans hyo.inCondition.symm
  inCall := hxo.inCall.trans hyo.inCall.symm

namespace Annotator

variable {src : Source} {a b c d : Annotator} {o : Opener} {outer : List Opener} {x y : Lexeme} {p q : List Lexeme}

/-! ## Brackets stay where they are -/

/-- A bracket in a list that was changed behind it stands in the list as it was. -/
theorem exists_split_of_change {p p' q q' : List Lexeme} {x z : Lexeme} (h : p ++ x :: q = p' ++ z :: q')
    (hp : ∀ u ∈ p, u.kind.isBracket = false) (hx : x.kind.isBracket = false) (hz : z.kind.isBracket = true) :
    ∃ m, q = m ++ z :: q' ∧ p' = p ++ x :: m := by
  rcases List.append_eq_append_iff.1 h with ⟨m, rfl, hq⟩ | ⟨m, rfl, hq⟩
  · cases m with
    | nil =>
      obtain ⟨rfl, -⟩ := List.cons.inj hq
      rw [hx] at hz
      cases hz
    | cons u m =>
      obtain ⟨rfl, rfl⟩ := List.cons.inj hq
      exact ⟨m, rfl, rfl⟩
  · cases m with
    | nil =>
      obtain ⟨rfl, -⟩ := List.cons.inj hq
      rw [hx] at hz
      cases hz
    | cons u m =>
      obtain ⟨rfl, -⟩ := List.cons.inj hq
      rw [hp z (by simp)] at hz
      cases hz

/-- A step leaves a bracket and all that was read before it. -/
theorem Effect.keeps (h : Effect a b) (ha : a.lexemes = p ++ y :: q) (hy : y.kind.isBracket = true) :
    ∃ p', b.lexemes = p' ++ y :: q := by
  cases h with
  | reads hlex _ _ _ => exact ⟨_ :: p, by rw [hlex, ha]; rfl⟩
  | @changes p₀ _ _ y₀ hlex hlex' hp hx _ _ _ =>
    obtain ⟨m, rfl, rfl⟩ := exists_split_of_change (hlex.symm.trans ha) hp hx hy
    exact ⟨p₀ ++ y₀ :: m, by rw [hlex', List.append_assoc, List.cons_append]⟩
  | asks hlex _ => exact ⟨p, hlex.trans ha⟩
  | opens hlex _ _ _ _ _ _ _ => exact ⟨_ :: p, by rw [hlex, ha]; rfl⟩
  | closes hlex _ _ _ _ _ => exact ⟨_ :: p, by rw [hlex, ha]; rfl⟩
  | directive hlex _ _ _ _ => exact ⟨_ ++ p, by rw [hlex, ha, List.append_assoc]⟩

/-- A bracket that a step did not read was there before, with all that was read before it. -/
theorem Effect.kept (h : Effect a b) (hb : b.lexemes = p ++ y :: q) (hy : y.kind.isBracket = true) :
    (p = [] ∧ a.lexemes = q) ∨ ∃ p', a.lexemes = p' ++ y :: q := by
  have hcons : ∀ {x : Lexeme}, x :: a.lexemes = p ++ y :: q → (p = [] ∧ a.lexemes = q) ∨ ∃ p', a.lexemes = p' ++ y :: q := by
    intro x hx
    cases p with
    | nil => exact .inl ⟨rfl, (List.cons.inj hx).2⟩
    | cons z p => exact .inr ⟨p, (List.cons.inj hx).2⟩
  cases h with
  | reads hlex _ _ _ => exact hcons (hlex.symm.trans hb)
  | @changes p₀ _ x₀ _ hlex hlex' hp _ hx _ _ =>
    obtain ⟨m, rfl, -⟩ := exists_split_of_change (hlex'.symm.trans hb) hp hx hy
    exact .inr ⟨p₀ ++ x₀ :: m, by rw [hlex, List.append_assoc, List.cons_append]⟩
  | asks hlex _ => exact .inr ⟨p, hlex.symm.trans hb⟩
  | opens hlex _ _ _ _ _ _ _ => exact hcons (hlex.symm.trans hb)
  | closes hlex _ _ _ _ _ => exact hcons (hlex.symm.trans hb)
  | @directive _ new _ _ hlex hdir _ _ _ =>
    refine .inr ?_
    rcases List.append_eq_append_iff.1 (hlex.symm.trans hb) with ⟨m, rfl, hq⟩ | ⟨m, rfl, hq⟩
    · exact ⟨m, hq⟩
    · cases m with
      | nil => exact ⟨[], hq.symm⟩
      | cons u m =>
        -- No lexeme of a directive is a bracket.
        obtain ⟨rfl, -⟩ := List.cons.inj hq
        rcases (hdir y (by simp)).kind with hk | hk <;> rw [hk] at hy <;> cases hy

/-! ## Where open brackets come from -/

/-- The bracket `o` was opened at the moment `c`, when the brackets `outer` were open: its lexeme `y` was the newest one then, and
`q` are those before it. -/
structure Origin (src : Source) (c : Annotator) (o : Opener) (outer : List Opener) (y : Lexeme) (q : List Lexeme) : Prop where
  reached : Steps src {} c
  opened : c.opened = o :: outer
  lexemes : c.lexemes = y :: q
  id_eq : o.id = q.length
  kind : y.kind = .opening o.bracket
  owner : y.owner = o.owner
  within : y.ReadWithin outer
  older : ∀ u ∈ outer, u.id < o.id

/-- The bracket was opened upon some others at an earlier moment, and has been part of what was read since. -/
def OpenedUpon (src : Source) (a : Annotator) (o : Opener) (outer : List Opener) : Prop :=
  ∃ c y p q, Origin src c o outer y q ∧ Steps src c a ∧ a.lexemes = p ++ y :: q

/-- Every list of brackets that are open or may be again. -/
def openLists (a : Annotator) : List (List Opener) := a.opened :: a.branches.flatMap fun b => b.saved :: b.firstBranch.toList

/-- Every bracket in such a list was opened upon those below it. -/
def Founded (src : Source) (a : Annotator) : Prop := ∀ s ∈ a.openLists, ∀ o outer, o :: outer <:+ s → OpenedUpon src a o outer

theorem OpenedUpon.step (h : OpenedUpon src a o outer) (hstep : Step src a b) : OpenedUpon src b o outer := by
  obtain ⟨c, y, p, q, horigin, hsteps, hlex⟩ := h
  obtain ⟨p', hlex'⟩ := hstep.effect.keeps hlex (horigin.kind ▸ rfl)
  exact ⟨c, y, p', q, horigin, hsteps.tail hstep, hlex'⟩

/-- Names of open brackets are names of lexemes that were read. -/
theorem OpenedUpon.id_lt (h : OpenedUpon src a o outer) : o.id < a.lexemes.length := by
  obtain ⟨c, y, p, q, horigin, -, hlex⟩ := h
  rw [hlex, horigin.id_eq, List.length_append, List.length_cons]
  omega

/-- The name of a directive brings back saved brackets only. -/
theorem mem_openLists_of_enterDirective {word : Text} {s : List Opener} (h : s ∈ (a.enterDirective word).openLists) :
    s ∈ a.openLists := by
  unfold enterDirective at h
  split_ifs at h with h1 h2 h3
  · rw [openLists, List.mem_cons] at h ⊢
    simpa using h
  · cases hb : a.branches with
    | nil => simpa [hb] using h
    | cons b bs =>
      rw [openLists, hb]
      cases hf : b.firstBranch <;> simp [openLists, hb, hf] at h ⊢ <;> grind
  · cases hb : a.branches with
    | nil => simpa [openLists, hb] using h
    | cons b bs =>
      rw [openLists, hb]
      cases hf : b.firstBranch <;> simp [openLists, hb, hf] at h ⊢ <;> grind
  · exact h

/-- Every list of brackets behind a step is the end of one in front of it, or its newest bracket was opened by the step. -/
theorem Effect.openLists_cases {s : List Opener} (h : Effect a b) (hs : s ∈ b.openLists) :
    (∃ s' ∈ a.openLists, s <:+ s') ∨ ∃ o x, s = o :: a.opened ∧ b.lexemes = x :: a.lexemes ∧ x.kind = .opening o.bracket ∧
      x.owner = o.owner ∧ x.ReadWithin a.opened ∧ o.id = a.lexemes.length ∧ b.opened = s := by
  have hsame : Unmoved a b → ∃ s' ∈ a.openLists, s <:+ s' := by
    intro hun
    refine ⟨s, ?_, List.suffix_refl _⟩
    rwa [openLists, hun.opened, hun.branches] at hs
  have htail : b.branches = a.branches → s ∈ b.branches.flatMap (fun b => b.saved :: b.firstBranch.toList) →
      ∃ s' ∈ a.openLists, s <:+ s' := by
    intro hbranches hmem
    rw [hbranches] at hmem
    exact ⟨s, List.mem_cons_of_mem _ hmem, List.suffix_refl _⟩
  cases h with
  | reads _ _ _ hun => exact .inl (hsame hun)
  | changes _ _ _ _ _ _ hun => exact .inl (hsame hun)
  | asks _ hun => exact .inl (hsame hun)
  | @opens x o hlex hk howner hwithin hid hopened hbranches _ =>
    rcases List.mem_cons.1 hs with rfl | hmem
    · exact .inr ⟨o, x, hopened, hlex, hk, howner, hwithin, hid, rfl⟩
    · exact .inl (htail hbranches hmem)
  | closes _ _ hcloses hbranches _ _ =>
    rcases List.mem_cons.1 hs with rfl | hmem
    · refine .inl ⟨a.opened, List.mem_cons_self, ?_⟩
      cases hcloses with
      | nothing _ hopened _ => exact hopened ▸ List.suffix_refl _
      | @innermost inner outer o hsplit _ _ hopened _ _ =>
        rw [hopened, hsplit]
        exact (List.suffix_cons o outer).trans (List.suffix_append inner _)
    · exact .inl (htail hbranches hmem)
  | @directive word _ _ _ _ _ hopened hbranches _ =>
    have hs' : s ∈ (a.enterDirective word).openLists := by rwa [openLists, ← hopened, ← hbranches]
    exact .inl ⟨s, mem_openLists_of_enterDirective hs', List.suffix_refl _⟩

theorem Founded.step (hfrom : Steps src {} a) (h : Founded src a) (hstep : Step src a b) : Founded src b := by
  intro s hs o outer hsuffix
  rcases hstep.effect.openLists_cases hs with ⟨s', hs', hsub⟩ | ⟨u, x, rfl, hlex, hk, howner, hwithin, hid, hopened⟩
  · exact (h s' hs' o outer (hsuffix.trans hsub)).step hstep
  · rcases List.suffix_cons_iff.1 hsuffix with heq | hsuffix
    · obtain ⟨rfl, rfl⟩ := List.cons.inj heq
      refine ⟨b, x, [], a.lexemes, ⟨hfrom.tail hstep, hopened, hlex, hid, hk, howner, hwithin, ?_⟩, .refl, hlex⟩
      intro v hv
      obtain ⟨l, r, hsplit⟩ := List.append_of_mem hv
      rw [hid]
      exact (h a.opened List.mem_cons_self v r (hsplit ▸ List.suffix_append l _)).id_lt
    · exact (h a.opened List.mem_cons_self o outer hsuffix).step hstep

theorem founded (h : Steps src {} a) : Founded src a := by
  induction h with
  | refl =>
    intro s hs o outer hsuffix
    obtain rfl := List.mem_singleton.1 hs
    cases List.suffix_nil.1 hsuffix
  | tail hfrom hstep ih => exact ih.step hfrom hstep

/-! ## What stands behind an open bracket -/

/-- No directive read between the two moments goes to another branch of a conditional or ends one. -/
def SameBranch (a b : Annotator) : Prop := ∃ news, b.trace = news ++ a.trace ∧ ∀ e ∈ news, e.switchesBranch = false

/-- The name of a directive that stays in its branch leaves the brackets. -/
theorem opened_enterDirective {word : Text} {line depth : Nat} (h : (Event.directiveRead word line depth).switchesBranch = false)
    (a : Annotator) : (a.enterDirective word).opened = a.opened := by
  rw [Event.switchesBranch, Bool.or_eq_false_iff] at h
  unfold enterDirective
  split_ifs
  · rfl
  · rename_i hstart
    rw [h.1] at hstart
    cases hstart
  · rename_i hend
    rw [h.2] at hend
    cases hend
  · rfl

/-- A step adds to the trace. Unless it goes to another branch it closes some brackets or opens one. -/
theorem Effect.opened_cases (h : Effect a b) : ∃ news, b.trace = news ++ a.trace ∧
    ((∀ e ∈ news, e.switchesBranch = false) →
      b.opened <:+ a.opened ∨ ∃ o : Opener, o.id = a.lexemes.length ∧ b.opened = o :: a.opened) := by
  have hsame : Unmoved a b → ∃ news, b.trace = news ++ a.trace ∧ ((∀ e ∈ news, e.switchesBranch = false) →
      b.opened <:+ a.opened ∨ ∃ o : Opener, o.id = a.lexemes.length ∧ b.opened = o :: a.opened) := by
    intro hun
    exact ⟨[], hun.trace, fun _ => .inl (hun.opened ▸ List.suffix_refl _)⟩
  cases h with
  | reads _ _ _ hun => exact hsame hun
  | changes _ _ _ _ _ _ hun => exact hsame hun
  | asks _ hun => exact hsame hun
  | @opens x o _ _ _ _ hid hopened _ htrace => exact ⟨[], htrace, fun _ => .inr ⟨o, hid, hopened⟩⟩
  | @closes _ _ news _ _ hcloses _ htrace _ =>
    refine ⟨news, htrace, fun _ => .inl ?_⟩
    cases hcloses with
    | nothing _ hopened _ => exact hopened ▸ List.suffix_refl _
    | @innermost inner outer o hsplit _ _ hopened _ _ =>
      rw [hopened, hsplit]
      exact (List.suffix_cons o outer).trans (List.suffix_append inner _)
  | directive _ _ hopened _ htrace =>
    refine ⟨[_], htrace, ?_⟩
    intro hstays
    rw [hopened, opened_enterDirective (hstays _ List.mem_cons_self) a]
    exact .inl (List.suffix_refl _)

/-- What a step reads is as deep as the brackets that are open in front of it and behind it. -/
theorem Effect.keeps_deep {n : Nat} (h : Effect a b) (ha : a.lexemes = p ++ y :: q) (hy : y.kind.isBracket = true)
    (hp : ∀ z ∈ p, (n : Int) ≤ z.depth) (hna : n ≤ a.opened.length) (hnb : n ≤ b.opened.length) :
    ∃ p', b.lexemes = p' ++ y :: q ∧ ∀ z ∈ p', (n : Int) ≤ z.depth := by
  have hadd : ∀ {x : Lexeme}, b.lexemes = x :: a.lexemes → (n : Int) ≤ x.depth →
      ∃ p', b.lexemes = p' ++ y :: q ∧ ∀ z ∈ p', (n : Int) ≤ z.depth := by
    intro x hlex hx
    exact ⟨x :: p, by rw [hlex, ha]; rfl, List.forall_mem_cons.2 ⟨hx, hp⟩⟩
  cases h with
  | reads hlex _ hdepth _ => exact hadd hlex (by rw [hdepth]; exact_mod_cast hna)
  | @changes p₀ _ x₀ y₀ hlex hlex' hcode hx _ hdepth _ =>
    obtain ⟨m, rfl, rfl⟩ := exists_split_of_change (hlex.symm.trans ha) hcode hx hy
    refine ⟨p₀ ++ y₀ :: m, by rw [hlex', List.append_assoc, List.cons_append], ?_⟩
    simp only [List.forall_mem_append, List.forall_mem_cons] at hp ⊢
    exact ⟨hp.1, hdepth ▸ hp.2.1, hp.2.2⟩
  | asks hlex _ => exact ⟨p, hlex.trans ha, hp⟩
  | opens hlex _ _ hwithin _ _ _ _ => exact hadd hlex (by rw [hwithin.depth]; exact_mod_cast hna)
  | closes hlex _ hcloses _ _ _ =>
    cases hcloses with
    | nothing _ _ hwithin => exact hadd hlex (by rw [hwithin.depth]; exact_mod_cast hna)
    | innermost _ _ _ hopened _ hwithin =>
      rw [hopened] at hnb
      exact hadd hlex (by rw [hwithin.depth]; exact_mod_cast hnb)
  | @directive _ new _ _ hlex hdir hopened _ _ =>
    refine ⟨new ++ p, by rw [hlex, ha, List.append_assoc], ?_⟩
    rw [List.forall_mem_append]
    refine ⟨?_, hp⟩
    intro z hz
    rw [(hdir z hz).depth_eq, depth, ← hopened]
    exact_mod_cast hnb

/-- As long as no directive goes to another branch, a bracket is open and all behind it deeper, or it is closed for good. -/
theorem Origin.behind (h : Origin src c o outer y q) (hsteps : Steps src c d) :
    ∃ p news, d.lexemes = p ++ y :: q ∧ d.trace = news ++ c.trace ∧ ((∀ e ∈ news, e.switchesBranch = false) →
      (o :: outer <:+ d.opened ∧ ∀ z ∈ p, ((outer.length + 1 : Nat) : Int) ≤ z.depth) ∨ ∀ u ∈ d.opened, u.id ≠ o.id) := by
  have hy : y.kind.isBracket = true := h.kind ▸ rfl
  induction hsteps with
  | refl => exact ⟨[], [], h.lexemes, rfl, fun _ => .inl ⟨h.opened ▸ List.suffix_refl _, by simp⟩⟩
  | @tail a b _ hstep ih =>
    obtain ⟨p, older, hlex, htrace, hcases⟩ := ih
    obtain ⟨newer, htrace', hmoves⟩ := hstep.effect.opened_cases
    obtain ⟨p₁, hlex₁⟩ := hstep.effect.keeps hlex hy
    have htrace'' : b.trace = (newer ++ older) ++ c.trace := by rw [htrace', htrace, List.append_assoc]
    by_cases hopen : (∀ e ∈ newer ++ older, e.switchesBranch = false) ∧ o :: outer <:+ a.opened ∧
        (∀ z ∈ p, ((outer.length + 1 : Nat) : Int) ≤ z.depth) ∧ o :: outer <:+ b.opened
    · obtain ⟨-, ha, hdeep, hb⟩ := hopen
      obtain ⟨p', hlex', hdeep'⟩ := hstep.effect.keeps_deep hlex hy hdeep ha.length_le hb.length_le
      exact ⟨p', newer ++ older, hlex', htrace'', fun _ => .inl ⟨hb, hdeep'⟩⟩
    · refine ⟨p₁, newer ++ older, hlex₁, htrace'', fun hstays => .inr ?_⟩
      obtain ⟨hnewer, holder⟩ := List.forall_mem_append.1 hstays
      intro u hu
      rcases hcases holder, hmoves hnewer with ⟨⟨ha, hdeep⟩ | hgone, hclosed | ⟨v, hv, hopened⟩⟩
      · rcases List.suffix_or_suffix_of_suffix hclosed ha with hsub | hsub
        · rcases List.suffix_cons_iff.1 hsub with heq | hsub
          · exact absurd ⟨hstays, ha, hdeep, heq ▸ List.suffix_refl _⟩ hopen
          · exact Nat.ne_of_lt (h.older u (hsub.subset hu))
        · exact absurd ⟨hstays, ha, hdeep, hsub⟩ hopen
      · exact absurd ⟨hstays, ha, hdeep, hopened ▸ ha.trans (List.suffix_cons v _)⟩ hopen
      · exact hgone u (hclosed.subset hu)
      · rw [hopened] at hu
        rcases List.mem_cons.1 hu with rfl | hu
        · rw [hv, h.id_eq, hlex, List.length_append, List.length_cons]
          omega
        · exact hgone u hu

/-! ## The moments at which brackets are read -/

/-- Every bracket was read by some step. -/
theorem exists_step_of_bracket (h : Steps src {} d) (hlex : d.lexemes = p ++ y :: q) (hy : y.kind.isBracket = true) :
    ∃ a b, Steps src {} a ∧ Step src a b ∧ Steps src b d ∧ b.lexemes = y :: q ∧ a.lexemes = q := by
  induction h generalizing p with
  | refl => simp at hlex
  | @tail a b hfrom hstep ih =>
    rcases hstep.effect.kept hlex hy with ⟨rfl, ha⟩ | ⟨p', ha⟩
    · exact ⟨a, b, hfrom, hstep, .refl, hlex, ha⟩
    · obtain ⟨a', b', hfrom', hstep', hsteps, hb', ha'⟩ := ih ha
      exact ⟨a', b', hfrom', hstep', hsteps.tail hstep, hb', ha'⟩

/-- Brackets that were read stay. -/
theorem Steps.keeps (h : Steps src c d) (hlex : c.lexemes = p ++ y :: q) (hy : y.kind.isBracket = true) :
    ∃ p', d.lexemes = p' ++ y :: q := by
  induction h with
  | refl => exact ⟨p, hlex⟩
  | tail _ hstep ih =>
    obtain ⟨p', hlex'⟩ := ih
    exact hstep.effect.keeps hlex' hy

/-- A step that reads a bracket opens it upon those that are open, or closes what it can. -/
theorem Effect.bracket_cases (h : Effect a b) (hlex : b.lexemes = x :: a.lexemes) (hx : x.kind.isBracket = true) :
    (∃ o : Opener, x.kind = .opening o.bracket ∧ x.owner = o.owner ∧ x.ReadWithin a.opened ∧ o.id = a.lexemes.length ∧
      b.opened = o :: a.opened) ∨ ∃ k, x.kind = .closing k ∧ Closes k x a b := by
  have hread : ∀ {z : Lexeme}, b.lexemes = z :: a.lexemes → z = x := fun hz => (List.cons.inj (hz.symm.trans hlex)).1
  have hlonger : b.lexemes.length ≠ a.lexemes.length := by
    rw [hlex, List.length_cons]
    omega
  cases h with
  | reads hz hkind _ _ =>
    rw [hread hz, hx] at hkind
    cases hkind
  | changes ha hb _ _ _ _ _ => exact absurd (by rw [ha, hb]; simp) hlonger
  | asks ha _ => exact absurd (congrArg _ ha) hlonger
  | @opens _ o hz hkind howner hwithin hid hopened _ _ =>
    obtain rfl := hread hz
    exact .inl ⟨o, hkind, howner, hwithin, hid, hopened⟩
  | @closes _ k _ hz hkind hcloses _ _ _ =>
    obtain rfl := hread hz
    exact .inr ⟨k, hkind, hcloses⟩
  | @directive _ new _ _ hnew hdir _ _ _ =>
    have hsingle : new = [x] := List.append_cancel_right ((hnew.symm.trans hlex).trans List.singleton_append.symm)
    rcases (hdir x (by simp [hsingle])).kind with hkind | hkind <;> rw [hkind] at hx <;> cases hx

/-- Reading a closing bracket closes what it can. -/
theorem Step.closes {k : Bracket} (h : Step src a b) (hlex : b.lexemes = x :: a.lexemes) (hk : x.kind = .closing k) :
    Closes k x a b := by
  rcases h.effect.bracket_cases hlex (hk ▸ rfl) with ⟨o, hopening, -⟩ | ⟨k', hclosing, hcloses⟩
  · rw [hk] at hopening
    cases hopening
  · obtain rfl := Kind.closing.inj (hk.symm.trans hclosing)
    exact hcloses

/-- Reading an opening bracket opens it upon those that are open. -/
theorem Step.origin {bracket : Bracket} (h : Step src a b) (hfrom : Steps src {} a) (hlex : b.lexemes = x :: a.lexemes)
    (hk : x.kind = .opening bracket) : ∃ o, Origin src b o a.opened x a.lexemes := by
  rcases h.effect.bracket_cases hlex (hk ▸ rfl) with ⟨o, hopening, howner, hwithin, hid, hopened⟩ | ⟨k, hclosing, -⟩
  · refine ⟨o, hfrom.tail h, hopened, hlex, hid, hopening, howner, hwithin, ?_⟩
    intro u hu
    obtain ⟨l, r, hsplit⟩ := List.append_of_mem hu
    rw [hid]
    exact (founded hfrom a.opened List.mem_cons_self u r (hsplit ▸ List.suffix_append l _)).id_lt
  · rw [hk] at hclosing
    cases hclosing

end Annotator

end CodeGroom
