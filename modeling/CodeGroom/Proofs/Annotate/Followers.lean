import CodeGroom.Proofs.Annotate.Level

/-!
# What follows a directive

A directive is read to the end of a line, and the next token is the line feed there. So what follows a piece of a directive on its
line is a line break.
-/

namespace CodeGroom

/-- A lexeme can follow another one: what follows a piece of a directive is a line break. -/
def Lexeme.MayFollow (y x : Lexeme) : Prop := x.inDirective = true → x.kind = .newline ∨ y.kind = .newline

namespace Annotator

variable {src : Source} {a b : Annotator} {pos : Nat} {ts : List Token} {t : Token} {x : Lexeme}

/-- Of the lexemes so far every one may follow the one before it, and anything may follow the newest one. -/
structure Open (a : Annotator) : Prop where
  chain : a.lexemes.IsChain Lexeme.MayFollow
  newest : ∀ x, a.lexemes.head? = some x → x.inDirective = true → x.kind = .newline

theorem open_start : Open {} := ⟨List.isChain_nil, fun _ hx => by cases hx⟩

/-- What is read next may follow. -/
theorem Open.chain_cons (h : Open a) (x : Lexeme) : (x :: a.lexemes).IsChain Lexeme.MayFollow := by
  refine List.isChain_cons.2 ⟨?_, h.chain⟩
  intro y hy hdir
  exact .inl (h.newest y hy hdir)

theorem Open.read (h : Open a) (hlex : b.lexemes = x :: a.lexemes) (hx : x.inDirective = false ∨ x.kind = .newline) : Open b where
  chain := hlex ▸ h.chain_cons x
  newest y hy hdir := by
    rw [hlex] at hy
    obtain rfl := Option.some.inj hy
    rcases hx with hx | hx
    · rw [hx] at hdir
      cases hdir
    · exact hx

/-- A lexeme that is no line break is changed for another one that belongs to a directive no more than it. -/
theorem Open.replace {y : Lexeme} {p q : List Lexeme} (h : Open a) (hlex : a.lexemes = p ++ x :: q)
    (hlex' : b.lexemes = p ++ y :: q) (hx : x.kind = .newline → y.kind = .newline) (hdir : y.inDirective = x.inDirective) :
    Open b where
  chain := by
    have hchain := h.chain
    rw [hlex] at hchain
    obtain ⟨hp, hxq, hlast⟩ := List.isChain_append.1 hchain
    obtain ⟨hhead, hq⟩ := List.isChain_cons.1 hxq
    rw [hlex']
    refine List.isChain_append.2 ⟨hp, List.isChain_cons.2 ⟨?_, hq⟩, ?_⟩
    · intro z hz hzdir
      rcases hhead z hz hzdir with hk | hk
      · exact .inl hk
      · exact .inr (hx hk)
    · intro z hz w hw hwdir
      obtain rfl := Option.some.inj hw
      rcases hlast z hz x rfl (hdir ▸ hwdir) with hk | hk
      · exact .inl (hx hk)
      · exact .inr hk
  newest z hz hzdir := by
    rw [hlex'] at hz
    cases p with
    | nil =>
      obtain rfl := Option.some.inj hz
      exact hx (h.newest x (by rw [hlex]; rfl) (hdir ▸ hzdir))
    | cons w p => exact h.newest z (by rw [hlex]; exact hz) hzdir

theorem Open.codeStep (h : Open a) (hstep : CodeStep src a b) : Open b := by
  cases hstep with
  | plain start text _ _ => exact h.read rfl (.inl rfl)
  | opening bracket start text owner _ => exact h.read rfl (.inl rfl)
  | closing start text _ _ =>
    obtain ⟨x, k, hlex, -, hdir, -⟩ := exists_closing src _ _ start text a
    exact h.read hlex (.inl hdir)
  | @retyped kind hword _ =>
    obtain ⟨p, x, q, hlex, hlex', hx, -⟩ := exists_retype kind hword
    refine h.replace hlex hlex' ?_ rfl
    intro hnewline
    rw [hx] at hnewline
    cases hnewline
  | lengthened covered hlex _ => exact h.replace (p := []) hlex rfl id rfl
  | asked questions => exact ⟨h.chain, h.newest⟩

/-- In a directive every line but the last one is read with its line break. -/
theorem Open.directiveLines (ls : List Text) (h : Open a) (pos : Nat) :
    (directiveLines src pos ls a).lexemes.IsChain Lexeme.MayFollow := by
  induction ls generalizing pos a with
  | nil => exact h.chain
  | cons l ls ih =>
    unfold Annotator.directiveLines
    dsimp only
    have hpart : (if Text.trimEnd (l.drop (l.takeWhile (·.isOneOf " \t")).length) = [] then a
        else a.add src .directive (pos + (l.takeWhile (·.isOneOf " \t")).length)
          (Text.trimEnd (l.drop (l.takeWhile (·.isOneOf " \t")).length)) .nothing true).lexemes.IsChain Lexeme.MayFollow := by
      split_ifs
      · exact h.chain
      · exact h.chain_cons _
    generalize (if Text.trimEnd (l.drop (l.takeWhile (·.isOneOf " \t")).length) = [] then a
      else a.add src .directive (pos + (l.takeWhile (·.isOneOf " \t")).length)
        (Text.trimEnd (l.drop (l.takeWhile (·.isOneOf " \t")).length)) .nothing true) = b at hpart ⊢
    split_ifs
    · refine ih ⟨List.isChain_cons.2 ⟨fun y _ _ => .inr rfl, hpart⟩, ?_⟩ _
      intro y hy _
      obtain rfl := Option.some.inj hy
      rfl
    · exact hpart

/-- The state between two tokens: anything may follow, or a directive was just read, up to the end of a line that the next token
does not start behind. -/
structure Followed (src : Source) (pos : Nat) (a : Annotator) : Prop where
  between : Between src pos a
  chain : a.lexemes.IsChain Lexeme.MayFollow
  newest : Open a ∨ pos ≤ a.resume ∧ AtLineEnd src a.resume

theorem Open.followed (h : Open a) (hbetween : Between src pos a) : Followed src pos a := ⟨hbetween, h.chain, .inl h⟩

/-- Anything may follow a line break. -/
theorem open_newline (h : a.lexemes.IsChain Lexeme.MayFollow) (start : Nat) : Open (a.newline src start) := by
  have hplain : Open (a.addPlain src .newline start [Text.lineFeed]) := by
    refine ⟨List.isChain_cons.2 ⟨fun y _ _ => .inr rfl, h⟩, ?_⟩
    intro y hy _
    obtain rfl := Option.some.inj hy
    rfl
  rcases newline_cases src start a with hread | ⟨x, xs, hlex, hnewline, hread⟩
  · rw [hread]
    exact hplain
  · rw [hread]
    rw [hlex] at h
    refine ⟨List.isChain_cons.2 ⟨fun y _ _ => .inr hnewline, (List.isChain_cons.1 h).2⟩, ?_⟩
    intro y hy _
    obtain rfl := Option.some.inj hy
    exact hnewline

/-- A token that starts at the end of a line is a line feed. -/
theorem text_of_atLineEnd (ht : t.text <+: src.text.drop pos) (hp : t.IsPiece) (hend : AtLineEnd src pos) :
    t.text = [Text.lineFeed] := by
  rcases hp with htext | ⟨hne, hnot⟩
  · exact htext
  · obtain ⟨y, u, htext⟩ := List.exists_cons_of_ne_nil hne
    obtain ⟨v, hv⟩ := ht
    have hy : y = Text.lineFeed := hend y (by rw [← hv, htext]; rfl)
    rw [htext, hy] at hnot
    exact absurd List.mem_cons_self hnot

/-- A token that is read as a directive is no line feed. -/
theorem lineFeed_notMem_of_readsDirective (hp : t.IsPiece) (hreads : a.readsDirective t = true) : Text.lineFeed ∉ t.text := by
  rcases hp with htext | ⟨-, hnot⟩
  · have hhead : t.text.trimStart.head? = none := by rw [htext]; decide
    simp [readsDirective, hhead] at hreads
  · exact hnot

theorem Followed.token (h : Followed src pos a) (hs : t.start = pos) (ht : t.text <+: src.text.drop pos) (hp : t.IsPiece) :
    Followed src (pos + t.text.length) (Annotator.token src a t) := by
  have hbetween := h.between.token hs ht hp
  subst hs
  by_cases hresume : t.start < a.resume
  · -- The token is passed over.
    have hsame : Annotator.token src a t = a := by simp [Annotator.token, hresume]
    have hend := h.between.lineEnd hresume
    rw [hsame] at hbetween ⊢
    exact ⟨hbetween, h.chain, .inr ⟨stop_le_of_atLineEnd ht hp hresume hend, hend⟩⟩
  rcases h.newest with hopen | ⟨hle, hend⟩
  · rcases directive_or_steps_token src hp.text_ne_nil a with ⟨hreads, hread⟩ | hcode
    · have hentered : Open (a.enterDirective (wordAt src (hashPlace t))) := by
        obtain ⟨hlex, -⟩ := enterDirective_leaves (wordAt src (hashPlace t)) a
        exact ⟨hlex ▸ hopen.chain, hlex ▸ hopen.newest⟩
      have hreached := h.between.reached
      rw [Nat.max_eq_left (Nat.not_lt.1 hresume)] at hreached
      obtain ⟨-, hstop, hend⟩ := hreached.directiveToken ht (lineFeed_notMem_of_readsDirective hp hreads)
      rw [hread] at hbetween ⊢
      refine ⟨hbetween, ?_, .inr ⟨hstop, hend⟩⟩
      rw [lexemes_directive]
      exact hentered.directiveLines _ _
    · exact (hcode.invariant (fun _ _ h hstep => h.codeStep hstep) hopen).followed hbetween
  · have hplace : t.start = a.resume := Nat.le_antisymm hle (Nat.not_lt.1 hresume)
    have htext := text_of_atLineEnd ht hp (hplace ▸ hend)
    have hnewline : Annotator.token src a t = a.newline src t.start := by simp [Annotator.token, hresume, htext]
    rw [hnewline] at hbetween ⊢
    exact (open_newline h.chain t.start).followed hbetween

theorem Followed.tokens (h : Followed src pos a) (ht : Token.Tiles pos (src.text.drop pos) ts) (hp : ∀ t ∈ ts, t.IsPiece) :
    (a.tokens src ts).lexemes.IsChain Lexeme.MayFollow := by
  generalize hrest : src.text.drop pos = rest at ht
  induction ht generalizing a with
  | nil pos => exact h.chain
  | @cons pos rest t ts hs hts ih =>
    have hstep := h.token hs (hrest ▸ List.prefix_append _ _) (hp t List.mem_cons_self)
    have hstop : t.stop = pos + t.text.length := by rw [Token.stop, hs]
    rw [hstop] at ih
    refine ih hstep (fun u hu => hp u (List.mem_cons_of_mem _ hu)) ?_
    rw [← List.drop_drop, hrest, List.drop_left]

end Annotator

open Annotator

/-- In a source whose tokens tile it what follows a piece of a directive is a line break. -/
theorem Source.mayFollow_annotate (src : Source) {ts : List Token} (h : Token.Tiles 0 src.text ts) :
    (src.annotate ts).lexemes.IsChain Lexeme.MayFollow := by
  have hstart : Followed src 0 ({} : Annotator) := open_start.followed (.start src)
  exact hstart.tokens h.cutLines.mergeRuns (Token.isPiece_of_mem_mergeRuns Token.isPiece_of_mem_cutLines)

end CodeGroom
