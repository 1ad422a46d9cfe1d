import CodeGroom.Proofs.Annotate.Effects
import CodeGroom.Proofs.Annotate.Level
import CodeGroom.Proofs.Strand.Blocks

/-!
# Reading gives blockwise strands

A lexeme is read inside the braces that are open. Braces are closed by a closing bracket, which stands outside of them itself, or at a
directive that goes back to another branch, whose own lexeme is the first one there. So whatever the brackets are, no other lexeme
leaves a block.
-/

namespace CodeGroom

namespace Annotator

variable {src : Source} {a b : Annotator} {ts : List Token}

/-- The lexemes read so far are blockwise, and the newest one is no deeper in braces than braces are open; just as deep, unless a block
may be left there. -/
structure BlockwiseUpTo (a : Annotator) : Prop where
  blockwise : a.lexemes.IsChain fun y x => Lexeme.StaysIn x y
  newest : ∀ x, a.lexemes.head? = some x →
    x.braceDepth ≤ a.braceDepth ∧ (x.kind.leavesBlock = false → x.braceDepth = a.braceDepth)

/-- Nothing has left its block before anything is read. -/
theorem blockwiseUpTo_start : BlockwiseUpTo {} := ⟨List.isChain_nil, fun _ hx => by cases hx⟩

/-- A lexeme is read where a block may be left, inside the braces that are open then. -/
theorem blockwiseUpTo_leaving {x : Lexeme} (h : a.lexemes.IsChain fun y x => Lexeme.StaysIn x y) (hlex : b.lexemes = x :: a.lexemes)
    (hx : x.kind.leavesBlock = true) (hbraces : x.braceDepth ≤ b.braceDepth) : BlockwiseUpTo b where
  blockwise := by
    rw [hlex]
    exact List.isChain_cons.2 ⟨fun y _ => Lexeme.staysIn_of_leaves hx y, h⟩
  newest y hy := by
    rw [hlex] at hy
    obtain rfl := Option.some.inj hy
    refine ⟨hbraces, fun hk => ?_⟩
    rw [hx] at hk
    cases hk

/-- A lexeme is read that opens and closes nothing. -/
theorem BlockwiseUpTo.add (h : BlockwiseUpTo a) (src : Source) (kind : Kind) (start : Nat) (text : Text) (owner : Kind)
    (directive : Bool) : BlockwiseUpTo (a.add src kind start text owner directive) where
  blockwise := by
    refine List.isChain_cons.2 ⟨fun y hy => ⟨fun _ => (h.newest y hy).1, fun hky _ => (h.newest y hy).2 hky⟩, h.blockwise⟩
  newest y hy := by
    obtain rfl := Option.some.inj hy
    exact ⟨Int.le_refl _, fun _ => rfl⟩

/-- One lexeme is changed for another one in the same braces, where a block may be left if it might before. -/
theorem BlockwiseUpTo.replace {x y : Lexeme} {p q : List Lexeme} (h : BlockwiseUpTo a) (hlex : a.lexemes = p ++ x :: q)
    (hlex' : b.lexemes = p ++ y :: q) (hopened : b.opened = a.opened)
    (hkind : y.kind.leavesBlock = false → x.kind.leavesBlock = false) (hbraces : y.braceDepth = x.braceDepth) :
    BlockwiseUpTo b where
  blockwise := by
    have hblockwise := h.blockwise
    rw [hlex] at hblockwise
    rw [hlex']
    obtain ⟨hp, hxq, hlast⟩ := List.isChain_append.1 hblockwise
    obtain ⟨hx, hq⟩ := List.isChain_cons.1 hxq
    refine List.isChain_append.2 ⟨hp, List.isChain_cons.2 ⟨fun z hz => ⟨fun hy => ?_, fun hkz hy => ?_⟩, hq⟩, ?_⟩
    · rw [hbraces]
      exact (hx z hz).le (hkind hy)
    · rw [hbraces]
      exact (hx z hz).eq hkz (hkind hy)
    · intro z hz w hw
      obtain rfl := Option.some.inj hw
      have hzx := hlast z hz x rfl
      refine ⟨fun hkz => ?_, fun hky hkz => ?_⟩
      · rw [hbraces]
        exact hzx.le hkz
      · rw [hbraces]
        exact hzx.eq (hkind hky) hkz
  newest z hz := by
    have hsame : b.braceDepth = a.braceDepth := by rw [braceDepth, hopened, braceDepth]
    rw [hsame]
    cases p with
    | nil =>
      rw [hlex'] at hz
      obtain rfl := Option.some.inj hz
      obtain ⟨hle, heq⟩ := h.newest x (by rw [hlex]; rfl)
      rw [hbraces]
      exact ⟨hle, fun hk => heq (hkind hk)⟩
    | cons w p =>
      rw [hlex'] at hz
      exact h.newest z (by rw [hlex]; exact hz)

/-- Every step in code keeps lexemes in their blocks. -/
theorem BlockwiseUpTo.codeStep (h : BlockwiseUpTo a) (hstep : CodeStep src a b) : BlockwiseUpTo b := by
  cases hstep with
  | plain start text _ _ => exact h.add src _ start text _ _
  | opening bracket start text owner _ =>
    have hopened : (a.openBracket src bracket start text owner).opened = ⟨a.lexemes.length, bracket, owner⟩ :: a.opened := rfl
    refine blockwiseUpTo_leaving h.blockwise rfl rfl (Int.ofNat_le.2 ?_)
    rw [braceDepth, braceDepth, hopened, List.countP_cons]
    exact Nat.le_add_right _ _
  | closing start text _ _ =>
    obtain ⟨x, k, hlex, hx, -, hbraces⟩ := exists_closing src _ _ start text a
    exact blockwiseUpTo_leaving h.blockwise hlex (by rw [Kind.leavesBlock, hx]; rfl) (Int.le_of_eq hbraces)
  | @retyped kind hword hk =>
    obtain ⟨p, x, q, hlex, hlex', hx, -⟩ := exists_retype kind hword
    exact h.replace hlex hlex' rfl (fun _ => by rw [hx]; rfl) rfl
  | lengthened covered hlex _ => exact h.replace (p := []) hlex rfl rfl id rfl
  | asked questions => exact ⟨h.blockwise, h.newest⟩

/-! ## Directives -/

/-- The lines of a directive stay in the block. -/
theorem BlockwiseUpTo.directiveLines (h : BlockwiseUpTo a) (src : Source) (ls : List Text) (pos : Nat) :
    BlockwiseUpTo (directiveLines src pos ls a) := by
  induction ls generalizing pos a with
  | nil => exact h
  | cons l ls ih =>
    unfold Annotator.directiveLines
    dsimp only
    obtain ⟨indent, hindent⟩ : ∃ n, n = (l.takeWhile (·.isOneOf " \t")).length := ⟨_, rfl⟩
    rw [← hindent]
    have hpart : BlockwiseUpTo (if Text.trimEnd (l.drop indent) = [] then a
        else a.add src .directive (pos + indent) (Text.trimEnd (l.drop indent)) .nothing true) := by
      split_ifs
      · exact h
      · exact h.add src _ _ _ _ _
    generalize (if Text.trimEnd (l.drop indent) = [] then a
      else a.add src .directive (pos + indent) (Text.trimEnd (l.drop indent)) .nothing true) = b at hpart ⊢
    split_ifs
    · exact ih (hpart.add src _ _ _ _ _) _
    · exact ⟨hpart.blockwise, hpart.newest⟩

/-- Whatever braces a directive goes back to, its first lexeme stands in them. -/
theorem blockwiseUpTo_directiveLines (h : a.lexemes.IsChain fun y x => Lexeme.StaysIn x y) (src : Source) (l : Text)
    (ls : List Text) (pos : Nat) : BlockwiseUpTo (directiveLines src pos ((.char '#' :: l) :: ls) a) := by
  have hindent : ((Symbol.char '#' :: l).takeWhile (·.isOneOf " \t")).length = 0 := by
    rw [List.takeWhile_cons_of_neg (by decide)]
    rfl
  have hfirst : BlockwiseUpTo (a.add src .directive (pos + 0) (Text.trimEnd (.char '#' :: l)) .nothing true) :=
    blockwiseUpTo_leaving h rfl rfl (Int.le_refl _)
  unfold directiveLines
  dsimp only
  rw [hindent, List.drop_zero, if_neg (trimEnd_hash_ne_nil l)]
  split_ifs
  · exact (hfirst.add src _ _ _ _ _).directiveLines src ls _
  · exact ⟨hfirst.blockwise, hfirst.newest⟩

/-- And so does a directive as a whole. -/
theorem BlockwiseUpTo.directive {start : Nat} (h : BlockwiseUpTo a) (hhash : src.text[start]? = some (.char '#')) :
    BlockwiseUpTo (a.directive src start) := by
  obtain ⟨l, ls, hlines⟩ := exists_lines_hash hhash
  have hentered : (a.enterDirective (wordAt src start)).lexemes.IsChain fun y x => Lexeme.StaysIn x y := by
    rw [(enterDirective_leaves (wordAt src start) a).1]
    exact h.blockwise
  have hread := blockwiseUpTo_directiveLines hentered src l ls start
  rw [← hlines] at hread
  unfold Annotator.directive
  dsimp only
  split_ifs <;> exact ⟨hread.blockwise, hread.newest⟩

/-- Any tokens are read so. -/
theorem BlockwiseUpTo.tokens (h : BlockwiseUpTo a) (hts : ∀ t ∈ ts, t.text ≠ []) (hhashes : showsHashes src a ts = true) :
    BlockwiseUpTo (a.tokens src ts) := by
  induction ts generalizing a with
  | nil => exact h
  | cons t ts ih =>
    rw [showsHashes, Bool.and_eq_true] at hhashes
    refine ih ?_ (fun u hu => hts u (List.mem_cons_of_mem _ hu)) hhashes.2
    rcases directive_or_steps_token src (hts t List.mem_cons_self) a with ⟨hreads, hread⟩ | hcode
    · rw [hread]
      refine h.directive ?_
      simpa [hreads] using hhashes.1
    · exact hcode.invariant (fun _ _ h hstep => h.codeStep hstep) h

end Annotator

/-- A source is read into a blockwise strand. -/
theorem Source.blockwise_read {src : Source} {ts : List Token} (h : src.Legible ts) : (src.read ts).Blockwise := by
  have hblockwise := (Annotator.blockwiseUpTo_start.tokens Token.text_ne_nil_of_mem_pieces h).blockwise
  rw [Strand.Blockwise, Lexeme.Blockwise, lexemes_read]
  exact List.isChain_reverse.2 hblockwise

end CodeGroom
