import CodeGroom.Proofs.Annotate.Moves
import CodeGroom.Proofs.Annotate.Spelling
import CodeGroom.Proofs.Text.Lines
import CodeGroom.Proofs.Token.Tiling

/-!
# Reading loses nothing

Tokens that tile a source are read without loss: whatever their classes, the lexemes spell the source, and only white space within
the last line is left over. A step reads what stands at the place that the reader has reached and takes the reader behind it;
tokens that a directive has covered already are passed over.
-/

namespace CodeGroom

namespace Annotator

variable {src : Source} {a : Annotator} {pos : Nat}

/-! ## Operators -/

/-- Reading an opening bracket spells it. -/
theorem Reached.openBracket {bracket : Bracket} {text : Text} {owner : Kind} (h : Reached src pos a)
    (ht : text <+: src.text.drop pos) (hlf : Text.lineFeed ∉ text) :
    Reached src (pos + text.length) (a.openBracket src bracket pos text owner) :=
  (h.add (by simp) ht hlf).congr rfl rfl rfl

/-- Reading a closing bracket spells it. -/
theorem Reached.closeBracket {fits : Bracket → Bool} {alone : Bracket} {text : Text} (h : Reached src pos a)
    (ht : text <+: src.text.drop pos) (hlf : Text.lineFeed ∉ text) :
    Reached src (pos + text.length) (a.closeBracket src fits alone pos text) := by
  unfold Annotator.closeBracket
  split
  · exact (h.congr rfl rfl rfl : Reached src pos (a.note _)).addPlain (by simp) ht hlf
  · refine Reached.add ?_ (by simp) ht hlf
    split_ifs
    · exact h.congr rfl rfl rfl
    · exact h.congr rfl rfl rfl

/-- Reading a round bracket spells it, whatever becomes of the word in front of it. -/
theorem Reached.openRound {text : Text} (h : Reached src pos a) (ht : text <+: src.text.drop pos)
    (hlf : Text.lineFeed ∉ text) : Reached src (pos + text.length) (a.openRound src pos text) := by
  obtain ⟨b, bracket, owner, hopen, hb⟩ := exists_openRound src pos text a
  have hname : Reached src pos b := by
    rcases hb with rfl | ⟨-, rfl | rfl⟩
    · exact h
    · exact h.retype (by simp)
    · exact h.retype (by simp)
  rw [hopen]
  exact hname.openBracket ht hlf

/-- Reading a sign spells it. -/
theorem Reached.sign {x : Symbol} (h : Reached src pos a) (ht : [x] <+: src.text.drop pos) (hlf : Text.lineFeed ∉ [x]) :
    Reached src (pos + 1) (a.sign src pos x) := by
  refine h.addPlain ?_ ht hlf
  split_ifs <;> simp

theorem Reached.closeAngle (h : Reached src pos a) (ht : [.char '>'] <+: src.text.drop pos) :
    Reached src (pos + 1) (a.closeAngle src pos) := by
  unfold Annotator.closeAngle
  split_ifs
  · exact h.closeBracket ht (by decide)
  · exact h.addPlain (by simp) ht (by decide)

/-- Reading a colon spells it. -/
theorem Reached.colon {text : Text} (h : Reached src pos a) (ht : text <+: src.text.drop pos)
    (hlf : Text.lineFeed ∉ text) : Reached src (pos + text.length) (a.colon src pos text) := by
  rcases colon_cases src pos text a with ⟨-, hread⟩ | ⟨rest, -, hread⟩
  · rw [hread]
    exact h.addPlain (by simp) ht hlf
  · have hasked : Reached src pos { a with questions := rest } := h.congr rfl rfl rfl
    rw [hread]
    exact hasked.addPlain (by simp) ht hlf

/-- No operator is a line break. -/
theorem operatorKind_ne_newline (op : Text) : (operatorKinds.lookup op).getD .arith ≠ .newline := by
  intro hk
  have hplain := isPlain_operatorKind op
  rw [hk] at hplain
  cases hplain

/-- Reading an operator spells it. -/
theorem Reached.operator {op : Text} (h : Reached src pos a) (ht : op <+: src.text.drop pos)
    (hlf : Text.lineFeed ∉ op) : Reached src (pos + op.length) (a.operator src pos op) := by
  unfold Annotator.operator
  split
  · exact h.openRound ht hlf
  · exact h.closeBracket ht hlf
  · exact h.openBracket ht hlf
  · exact h.closeBracket ht hlf
  · exact h.openBracket ht hlf
  · exact h.closeBracket ht hlf
  · split_ifs
    · exact h.openBracket ht hlf
    · exact h.addPlain (by simp) ht hlf
  · exact h.closeAngle ht
  · split_ifs
    · have hfirst : [Symbol.char '>'] <+: src.text.drop pos :=
        (List.prefix_append [Symbol.char '>'] [Symbol.char '>']).trans ht
      have hsecond : [Symbol.char '>'] <+: src.text.drop (pos + 1) :=
        Text.prefix_drop_add (u := [.char '>']) (v := [.char '>']) ht
      exact (h.closeAngle hfirst).closeAngle hsecond
    · exact h.addPlain (by simp) ht hlf
  · exact h.colon ht hlf
  · have hread : Reached src pos { a with questions := a.depth :: a.questions } := h.congr rfl rfl rfl
    exact hread.addPlain (by simp) ht hlf
  · have hread : Reached src pos { a with questions := a.questions.filter (· < a.depth) } := h.congr rfl rfl rfl
    exact hread.addPlain (by simp) ht hlf
  · refine Reached.addPlain ?_ (by simp) ht hlf
    split_ifs
    · exact h.retype (by simp)
    · exact h
  · exact h.sign ht hlf
  · exact h.sign ht hlf
  · exact h.addPlain (operatorKind_ne_newline op) ht hlf

/-- Cutting a run of operator symbols loses none of them. -/
theorem flatten_cutOperators (t : Text) : (cutOperators t).flatten = t := by
  fun_induction cutOperators t with
  | case1 x y z rest _ ih => simp [ih]
  | case2 x y z rest _ _ ih => simp [ih]
  | case3 x y z rest _ _ ih => simp [ih]
  | case4 x y h => simp
  | case5 x y h => simp
  | case6 x => rfl
  | case7 => rfl

/-- Reading operators spells them. -/
theorem Reached.operators (ops : List Text) (h : Reached src pos a) (ht : ops.flatten <+: src.text.drop pos)
    (hlf : Text.lineFeed ∉ ops.flatten) : Reached src (pos + ops.flatten.length) (operators src pos ops a) := by
  induction ops generalizing pos a with
  | nil => exact h
  | cons op ops ih =>
    rw [List.flatten_cons] at ht hlf ⊢
    simp only [List.mem_append, not_or] at hlf
    have hop := h.operator ((List.prefix_append _ _).trans ht) hlf.1
    have hrest := ih hop (Text.prefix_drop_add ht) hlf.2
    rwa [List.length_append, ← Nat.add_assoc]

/-! ## Words and numbers -/

/-- No word is a line break. -/
theorem wordKind_ne_newline (cls : TokenClass) (text : Text) (before : Kind) : wordKind cls text before ≠ .newline := by
  have hkinds : ∀ kind ∈ wordKinds, kind ≠ .newline := by decide
  exact hkinds _ (mem_wordKinds cls text before)

/-- Reading a word spells it. -/
theorem Reached.word {cls : TokenClass} {text : Text} (h : Reached src pos a) (ht : text <+: src.text.drop pos)
    (hlf : Text.lineFeed ∉ text) : Reached src (pos + text.length) (a.word src pos cls text) :=
  h.addPlain (wordKind_ne_newline _ _ _) ht hlf

/-- A word that may be empty. -/
theorem Reached.word? (cls : TokenClass) {w : Text} (h : Reached src pos a) (ht : w <+: src.text.drop pos)
    (hlf : Text.lineFeed ∉ w) : Reached src (pos + w.length) (if w = [] then a else a.word src pos cls w) := by
  split_ifs with hw
  · simpa [hw] using h
  · exact h.word ht hlf

/-- The text that scopes stand for, with `::` between them. -/
def joinScopes (ws : List Text) : Text := List.intercalate (Text.ofString "::") ws

theorem joinScopes_cons_cons (w w' : Text) (ws : List Text) :
    joinScopes (w :: w' :: ws) = w ++ (Text.ofString "::" ++ joinScopes (w' :: ws)) := by
  simp [joinScopes, List.intercalate_cons_cons]

/-- Cutting a name at its `::` loses none of its symbols. -/
theorem joinScopes_cutScopes (t : Text) : cutScopes t ≠ [] ∧ joinScopes (cutScopes t) = t := by
  fun_induction cutScopes t with
  | case1 => exact ⟨by simp, rfl⟩
  | case2 rest ih =>
    obtain ⟨w, ws, h⟩ := List.exists_cons_of_ne_nil ih.1
    refine ⟨by simp, ?_⟩
    rw [h, joinScopes_cons_cons, ← h, ih.2]
    rfl
  | case3 x rest _ h ih => exact absurd h ih.1
  | case4 x rest _ w ws h ih =>
    refine ⟨by simp, ?_⟩
    rw [h] at ih
    cases ws with
    | nil => simpa [joinScopes] using ih.2
    | cons w' ws =>
      rw [joinScopes_cons_cons, List.cons_append, ← joinScopes_cons_cons, ih.2]

/-- Reading a qualified name spells it. -/
theorem Reached.names (cls : TokenClass) (ws : List Text) (h : Reached src pos a)
    (ht : joinScopes ws <+: src.text.drop pos) (hlf : Text.lineFeed ∉ joinScopes ws) :
    Reached src (pos + (joinScopes ws).length) (names src cls pos ws a) := by
  induction ws generalizing pos a with
  | nil => exact h
  | cons w ws ih =>
    cases ws with
    | nil =>
      have hw : joinScopes [w] = w := by simp [joinScopes]
      rw [hw] at ht hlf ⊢
      exact h.word? cls ht hlf
    | cons w' ws =>
      rw [joinScopes_cons_cons] at ht hlf ⊢
      simp only [List.mem_append, not_or] at hlf
      have hword := h.word? .name ((List.prefix_append _ _).trans ht) hlf.1
      have hafter := Text.prefix_drop_add ht
      have hscope := hword.operator ((List.prefix_append _ _).trans hafter) hlf.2.1
      have hrest := ih hscope (Text.prefix_drop_add hafter) hlf.2.2
      rw [List.length_append, List.length_append, ← Nat.add_assoc, ← Nat.add_assoc]
      exact hrest

/-- Reading a number spells it. -/
theorem Reached.number {cls : TokenClass} {text : Text} (h : Reached src pos a) (ht : text <+: src.text.drop pos)
    (hlf : Text.lineFeed ∉ text) : Reached src (pos + text.length) (a.number src pos cls text) := by
  have hkind : (if cls.within .numberFloat = true then Kind.float else Kind.integer) ≠ .newline := by
    split_ifs <;> simp
  unfold Annotator.number
  dsimp only
  split
  · rename_i x rest
    by_cases hx : x.isOneOf "+-" = true
    · rw [if_pos hx, List.length_cons, Nat.add_comm rest.length, ← Nat.add_assoc]
      simp only [List.mem_cons, not_or] at hlf
      have hsign := h.sign (x := x) ((List.prefix_append [x] rest).trans ht) (by simpa using hlf.1)
      exact hsign.addPlain hkind (Text.prefix_drop_add (u := [x]) ht) hlf.2
    · rw [if_neg hx]
      exact h.addPlain hkind ht hlf
  · exact h.addPlain hkind ht hlf

/-! ## Directives -/

/-- The place is the end of a line. -/
def AtLineEnd (src : Source) (pos : Nat) : Prop := ∀ x, (src.text.drop pos).head? = some x → x = Text.lineFeed

/-- A line is its indentation and the rest. -/
theorem isGap_indent (l : Text) : Text.IsGap (l.takeWhile (·.isOneOf " \t")) := by
  intro x hx
  have hone := List.mem_takeWhile_imp hx
  cases x with
  | byte b => cases hone
  | char c =>
    have hc : c = ' ' ∨ c = '\t' := by simpa [Symbol.isOneOf] using hone
    rcases hc with rfl | rfl
    · exact ⟨by decide, by decide⟩
    · exact ⟨by decide, by decide⟩

/-- A text is the text without the white space at its end, and that white space. -/
theorem trimEnd_append (t : Text) : ∃ u, t = t.trimEnd ++ u ∧ ∀ x ∈ u, x.isBlank = true := by
  refine ⟨(t.reverse.takeWhile (·.isBlank)).reverse, ?_, ?_⟩
  · rw [Text.trimEnd, ← List.reverse_append, List.takeWhile_append_dropWhile, List.reverse_reverse]
  · intro x hx
    exact List.mem_takeWhile_imp (List.mem_reverse.1 hx)

/-- Reading the first line of a directive takes the reader to the end of that line. -/
theorem Reached.directiveLine {l : Text} (h : Reached src pos a) (ht : l <+: src.text.drop pos)
    (hlf : Text.lineFeed ∉ l) :
    let indent := (l.takeWhile (·.isOneOf " \t")).length
    let part := Text.trimEnd (l.drop indent)
    Reached src (pos + l.length) (if part = [] then a else a.add src .directive (pos + indent) part .nothing true) := by
  intro indent part
  obtain ⟨u, hbody, hblank⟩ := trimEnd_append (l.drop indent)
  have htake : l.take indent = l.takeWhile (·.isOneOf " \t") := by
    have happ := List.takeWhile_append_dropWhile (p := (·.isOneOf " \t")) (l := l)
    conv_lhs => rw [← happ]
    exact List.take_left
  have hl : l = l.take indent ++ (part ++ u) := by
    rw [← hbody, List.take_append_drop]
  have hlen : (l.take indent).length = indent := by rw [htake]
  rw [hl] at ht hlf
  simp only [List.mem_append, not_or] at hlf
  have hindent := h.skip ((List.prefix_append _ _).trans ht) (htake ▸ isGap_indent l)
  rw [hlen] at hindent
  have hafter := Text.prefix_drop_add ht
  rw [hlen] at hafter
  have hpart : Reached src (pos + indent + part.length)
      (if part = [] then a else a.add src .directive (pos + indent) part .nothing true) := by
    split_ifs with hp
    · simpa [hp] using hindent
    · exact hindent.add (by simp) ((List.prefix_append _ _).trans hafter) hlf.2.1
  have hend := hpart.skip (Text.prefix_drop_add hafter) fun x hx => ⟨hblank x hx, fun hxl => hlf.2.2 (hxl ▸ hx)⟩
  have hsum : pos + l.length = pos + indent + part.length + u.length := by
    rw [hl, List.length_append, List.length_append, hlen]
    omega
  rwa [hsum]

/-- A directive is read to the end of one of its lines, the first one or a later one. -/
theorem Reached.directiveLines {l : Text} {ls : List Text} (h : Reached src pos a) (hlf : ∀ m ∈ l :: ls, Text.lineFeed ∉ m)
    (ht : Text.unlines (l :: ls) = src.text.drop pos) :
    Reached src (directiveLines src pos (l :: ls) a).resume (directiveLines src pos (l :: ls) a) ∧
      pos + l.length ≤ (directiveLines src pos (l :: ls) a).resume ∧
      AtLineEnd src (directiveLines src pos (l :: ls) a).resume := by
  induction ls generalizing pos a l with
  | nil =>
    rw [Text.unlines_singleton] at ht
    have hline := h.directiveLine (l := l) (ht ▸ List.prefix_refl _) (hlf l List.mem_cons_self)
    have hend : AtLineEnd src (pos + l.length) := by
      intro x hx
      rw [← List.drop_drop, ← ht, List.drop_length] at hx
      cases hx
    unfold Annotator.directiveLines
    simp only [List.isEmpty_nil, Bool.not_true, Bool.false_and, Bool.false_eq_true, if_false]
    exact ⟨⟨hline.spells, hline.covered_le, hline.le_length, hline.gap, Nat.le_refl _⟩, Nat.le_refl _, hend⟩
  | cons l' ls ih =>
    rw [Text.unlines_cons_cons] at ht
    have hline := h.directiveLine (l := l) (ht ▸ List.prefix_append _ _) (hlf l List.mem_cons_self)
    have hdrop : src.text.drop (pos + l.length) = Text.lineFeed :: Text.unlines (l' :: ls) := by
      rw [← List.drop_drop, ← ht, List.drop_left]
    unfold Annotator.directiveLines
    dsimp only at hline ⊢
    generalize (if Text.trimEnd (l.drop (l.takeWhile (·.isOneOf " \t")).length) = [] then a
      else a.add src .directive (pos + (l.takeWhile (·.isOneOf " \t")).length)
        (Text.trimEnd (l.drop (l.takeWhile (·.isOneOf " \t")).length)) .nothing true) = b at hline ⊢
    split_ifs with hcont
    · have hnext : Text.unlines (l' :: ls) = src.text.drop (pos + l.length + 1) := by
        rw [← List.drop_drop, hdrop, List.drop_one, List.tail_cons]
      have hbreak := hline.addNewline .nothing true (by rw [hdrop]; exact List.prefix_append [_] _)
      obtain ⟨h1, h2, h3⟩ := ih hbreak (fun m hm => hlf m (List.mem_cons_of_mem _ hm)) hnext
      exact ⟨h1, by omega, h3⟩
    · refine ⟨⟨hline.spells, hline.covered_le, hline.le_length, hline.gap, Nat.le_refl _⟩, Nat.le_refl _, ?_⟩
      intro x hx
      rw [hdrop] at hx
      exact (Option.some.inj hx).symm

/-- Entering a directive spells nothing. -/
theorem enterDirective_keeps (word : Text) (a : Annotator) : (enterDirective word a).lexemes = a.lexemes ∧
    (enterDirective word a).covered = a.covered ∧ (enterDirective word a).resume = a.resume := by
  unfold enterDirective
  split_ifs
  · exact ⟨rfl, rfl, rfl⟩
  · split
    · exact ⟨rfl, rfl, rfl⟩
    · exact ⟨rfl, rfl, rfl⟩
  · split
    · exact ⟨rfl, rfl, rfl⟩
    · exact ⟨rfl, rfl, rfl⟩
  · exact ⟨rfl, rfl, rfl⟩

/-- A directive is read to the end of a line, behind whatever stands on its first line. -/
theorem Reached.directive {u : Text} (h : Reached src pos a) (hu : u <+: src.text.drop pos) (hlf : Text.lineFeed ∉ u) :
    Reached src (a.directive src pos).resume (a.directive src pos) ∧ pos + u.length ≤ (a.directive src pos).resume ∧
      AtLineEnd src (a.directive src pos).resume := by
  obtain ⟨v, hv⟩ := hu
  obtain ⟨m, ls, -, hlines⟩ := Text.lines_append_of_notMem hlf v
  rw [hv] at hlines
  obtain ⟨hk1, hk2, hk3⟩ := enterDirective_keeps (directiveWord (src.text.drop pos)) a
  have hall : ∀ x ∈ (u ++ m) :: ls, Text.lineFeed ∉ x := fun x hx => Text.lineFeed_notMem_lines (hlines ▸ hx)
  have hjoin : Text.unlines ((u ++ m) :: ls) = src.text.drop pos := by rw [← hlines, Text.unlines_lines]
  obtain ⟨h1, h2, h3⟩ := (h.congr hk1 hk2 hk3).directiveLines hall hjoin
  rw [← hlines] at h1 h2 h3
  rw [List.length_append] at h2
  unfold Annotator.directive
  dsimp only
  split_ifs
  · exact ⟨h1.congr rfl rfl rfl, by simp only [note]; omega, h3⟩
  · exact ⟨h1.congr rfl rfl rfl, by simp only [note]; omega, h3⟩

/-! ## Tokens -/

/-- The state between two tokens: the reader has reached the place where the next token starts, or the end of a line behind it,
which a directive was read to. -/
structure Between (src : Source) (pos : Nat) (a : Annotator) : Prop where
  reached : Reached src (max pos a.resume) a
  lineEnd : pos < a.resume → AtLineEnd src a.resume

/-- What has been reached lies between lexemes. -/
theorem Between.of_reached (h : Reached src pos a) : Between src pos a := by
  refine ⟨?_, fun hlt => absurd h.resume_le (Nat.not_le.2 hlt)⟩
  rwa [Nat.max_eq_left h.resume_le]

/-- A token that starts in front of the end of a line stops there at the latest. -/
theorem stop_le_of_atLineEnd {t : Token} {resume : Nat} (ht : t.text <+: src.text.drop pos) (hp : t.IsPiece)
    (hlt : pos < resume) (hend : AtLineEnd src resume) : pos + t.text.length ≤ resume := by
  by_contra hgt
  have hsplit : t.text = t.text.take (resume - pos) ++ t.text.drop (resume - pos) := (List.take_append_drop _ _).symm
  cases hd : t.text.drop (resume - pos) with
  | nil =>
    have := congrArg List.length hd
    simp only [List.length_drop, List.length_nil] at this
    omega
  | cons x l =>
    rw [hsplit, hd] at ht
    have hx := Text.prefix_drop_add ht
    rw [List.length_take, Nat.min_eq_left (by omega), Nat.add_sub_cancel' (by omega)] at hx
    obtain ⟨w, hw⟩ := hx
    have hlf : x = Text.lineFeed := hend x (by rw [← hw]; rfl)
    rcases hp with hone | ⟨-, hnot⟩
    · have := congrArg List.length hone
      simp only [List.length_singleton] at this
      omega
    · apply hnot
      rw [hsplit, hd, hlf]
      simp

/-- The white space in front of what is left of a token. -/
theorem trimStart_append (t : Text) : ∃ u, t = u ++ t.trimStart ∧ (∀ x ∈ u, x.isBlank = true) ∧
    u.length = t.length - t.trimStart.length := by
  refine ⟨t.takeWhile (·.isBlank), ?_, fun x hx => List.mem_takeWhile_imp hx, ?_⟩
  · rw [Text.trimStart, List.takeWhile_append_dropWhile]
  · have happ := congrArg List.length (List.takeWhile_append_dropWhile (p := (·.isBlank)) (l := t))
    rw [List.length_append] at happ
    rw [Text.trimStart]
    omega

/-- Reading a token as a directive takes the reader to the end of a line behind it. -/
theorem Reached.directiveToken {t : Token} (h : Reached src t.start a) (ht : t.text <+: src.text.drop t.start)
    (hlf : Text.lineFeed ∉ t.text) :
    let b := a.directive src (t.start + (t.text.length - t.text.trimStart.length))
    Reached src b.resume b ∧ t.start + t.text.length ≤ b.resume ∧ AtLineEnd src b.resume := by
  intro b
  obtain ⟨u, hu, hblank, hlen⟩ := trimStart_append t.text
  have hsum := congrArg List.length hu
  rw [List.length_append] at hsum
  rw [hu] at hlf ht
  simp only [List.mem_append, not_or] at hlf
  have hskip := h.skip ((List.prefix_append _ _).trans ht) fun x hx => ⟨hblank x hx, fun hxl => hlf.1 (hxl ▸ hx)⟩
  obtain ⟨hreached, hle, hend⟩ := hskip.directive (Text.prefix_drop_add ht) hlf.2
  rw [hlen] at hreached hle hend
  have hstop : t.start + t.text.length ≤ (a.directive src (t.start + (t.text.length - t.text.trimStart.length))).resume := by
    omega
  exact ⟨hreached, hstop, hend⟩

/-- Reading a token takes the reader behind it. -/
theorem Between.token {t : Token} (h : Between src pos a) (hs : t.start = pos) (ht : t.text <+: src.text.drop pos)
    (hp : t.IsPiece) : Between src (pos + t.text.length) (token src a t) := by
  subst hs
  by_cases hresume : t.start < a.resume
  · have hle := stop_le_of_atLineEnd ht hp hresume (h.lineEnd hresume)
    have hr := h.reached
    rw [Nat.max_eq_right (by omega)] at hr
    have htoken : token src a t = a := by simp [Annotator.token, hresume]
    rw [htoken]
    refine ⟨?_, fun _ => h.lineEnd hresume⟩
    rwa [Nat.max_eq_right hle]
  · have hr := h.reached
    rw [Nat.max_eq_left (Nat.not_lt.1 hresume)] at hr
    by_cases hfeed : t.text = [Text.lineFeed]
    · have htoken : token src a t = a.newline src t.start := by simp [Annotator.token, hresume, hfeed]
      rw [htoken, hfeed]
      exact .of_reached (hr.newline (hfeed ▸ ht))
    · have hlf := (hp.resolve_left hfeed).2
      unfold Annotator.token
      rw [if_neg hresume, if_neg hfeed]
      split_ifs with h1 h2 h3 h4 h5 h6 h7
      · obtain ⟨hreached, hle, hend⟩ := hr.directiveToken ht hlf
        refine ⟨?_, fun _ => hend⟩
        rwa [Nat.max_eq_right hle]
      · exact .of_reached (hr.addPlain (by simp) ht hlf)
      · refine .of_reached (hr.skip ht fun x hx => ⟨?_, fun hxl => hlf (hxl ▸ hx)⟩)
        simp only [Text.isBlank, Bool.and_eq_true, List.all_eq_true] at h3
        exact h3.2 x hx
      · exact .of_reached (hr.addPlain (by simp) ht hlf)
      · exact .of_reached (hr.number ht hlf)
      · have hjoin := (joinScopes_cutScopes t.text).2
        have hnames := hr.names t.cls (cutScopes t.text) (by rwa [hjoin]) (by rwa [hjoin])
        rw [hjoin] at hnames
        exact .of_reached hnames
      · have hflat := flatten_cutOperators t.text
        have hops := hr.operators (cutOperators t.text) (by rwa [hflat]) (by rwa [hflat])
        rw [hflat] at hops
        exact .of_reached hops
      · exact .of_reached (hr.addPlain (by simp) ht hlf)

/-- Nothing has been read at the start. -/
theorem Between.start (src : Source) : Between src 0 ({} : Annotator) :=
  .of_reached ⟨.nil, Nat.le_refl _, Nat.zero_le _, by simpa [Text.slice_self] using Text.IsGap.nil, Nat.le_refl _⟩

/-- Reading tokens that tile the rest of a source takes the reader to its end. -/
theorem Between.tokens {ts : List Token} (h : Between src pos a) (ht : Token.Tiles pos (src.text.drop pos) ts)
    (hp : ∀ t ∈ ts, t.IsPiece) : Between src src.text.length (a.tokens src ts) := by
  generalize hrest : src.text.drop pos = rest at ht
  induction ht generalizing a with
  | nil pos =>
    have hle := List.drop_eq_nil_iff.1 hrest
    have hmax := h.reached.le_length
    obtain rfl : pos = src.text.length := by omega
    exact h
  | @cons pos rest t ts hs hts ih =>
    have hstep := h.token hs (hrest ▸ List.prefix_append _ _) (hp t List.mem_cons_self)
    have hstop : t.stop = pos + t.text.length := by rw [Token.stop, hs]
    rw [hstop] at ih
    refine ih hstep (fun u hu => hp u (List.mem_cons_of_mem _ hu)) ?_
    rw [← List.drop_drop, hrest, List.drop_left]

end Annotator

open Annotator

/-- A source whose tokens tile it is read without loss: the lexemes spell it up to white space at the end of its last line. -/
theorem Source.spells_annotate (src : Source) {ts : List Token} (h : Token.Tiles 0 src.text ts) :
    ∃ t rest, src.text = t ++ rest ∧ rest.IsGap ∧ Spells src.tabSize t (src.annotate ts).lexemes := by
  have hend := (Between.start src).tokens h.cutLines.mergeRuns (Token.isPiece_of_mem_mergeRuns Token.isPiece_of_mem_cutLines)
  have hr := hend.reached
  rw [Nat.max_eq_left (Nat.le_trans (Nat.le_max_right _ _) hr.le_length)] at hr
  refine ⟨_, _, (?_ : src.text = _ ++ src.text.slice (src.annotate ts).covered src.text.length), hr.gap, hr.spells⟩
  exact ((Text.take_append_slice src.text hr.covered_le).trans List.take_length).symm

end CodeGroom
