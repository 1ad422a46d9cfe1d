import CodeGroom.Proofs.Alignment.Pushes
import CodeGroom.Proofs.Annotate.Blocks

/-!
# The calls of a run belong together

The calls of a run have one name with their qualifiers, one depth, and stand in one block of braces that is not left in between. That
blocks are left at brackets and directives only is what the last part rests on: the current run is ended at such a lexeme, but neither a
call nor a line break is asked for its braces.
-/

namespace CodeGroom

theorem Kind.mem_of_qualifies {k : Kind} (h : k.qualifies = true) : k ∈ [Kind.type, .member, .qualifier] := by
  cases k <;> first | decide | cases h

theorem Kind.leavesBlock_of_qualifies {k : Kind} (h : k.qualifies = true) : k.leavesBlock = false := by
  cases k <;> first | rfl | cases h

namespace Strand

variable {s t : Strand} {call edge : Nat}

theorem Recolumned.braceDepth_eq (h : Recolumned s t) (o : Option Nat) : (t.lexeme o).braceDepth = (s.lexeme o).braceDepth := by
  cases o with
  | none => rfl
  | some i => rw [h.lexeme_eq]

theorem Recolumned.qualifiedName_eq (h : Recolumned s t) (edge call : Nat) :
    t.qualifiedName edge call = s.qualifiedName edge call := by
  simp only [qualifiedName, onward, h.after_eq, h.text_eq]

/-- In a blockwise strand a call that leads its line stands in the block where the line starts. -/
theorem LeadsLine.braceDepth_edge (h : s.LeadsLine call) (hs : s.WellLinked) (hblocks : s.Blockwise)
    (hedge : s.leftEdge (some call) = some edge) : (s.lexeme (some edge)).braceDepth = (s.lexeme (some call)).braceDepth := by
  obtain ⟨front, newline, m, rest, hlinked, -, hm, hhead⟩ := h.exists_front hs
  have hsplit : s.Linked ((front ++ [newline]) ++ ((m ++ [call]) ++ rest)) := by simpa using hlinked
  refine hblocks.braceDepth_eq hsplit (fun x hx => ?_) (hhead ▸ hedge) (by simp)
  rcases List.mem_append.1 hx with hx | hx
  · exact Kind.leavesBlock_of_qualifies (hm x hx)
  · rw [List.mem_singleton.1 hx, h.kind]
    rfl

end Strand

namespace CallRun

/-- The calls of a run belong together: each is the first thing on its line apart from its qualifiers, they have one name with their
qualifiers, one depth and one depth in braces, and nothing between two of them is less deep in braces. -/
structure Together (s : Strand) (r : CallRun) : Prop where
  leads : ∀ c ∈ r.calls, ∃ front newline qualifiers rest, s.order = front ++ newline :: (qualifiers ++ c :: rest) ∧
    s.isNewline newline = true ∧ ∀ x ∈ qualifiers, (s.lexeme (some x)).kind ∈ [Kind.type, .member, .qualifier]
  name : ∀ c ∈ r.calls, ∃ edge, s.leftEdge (some c) = some edge ∧ s.qualifiedName edge c = r.name
  depth : ∀ c ∈ r.calls, (s.lexeme (some c)).depth = r.depth
  braceDepth : ∀ c ∈ r.calls, (s.lexeme (some c)).braceDepth = r.braceDepth
  between : ∀ c ∈ r.calls, ∀ c' ∈ r.calls, ∀ x ∈ s.order, s.placeOf c ≤ s.placeOf x → s.placeOf x ≤ s.placeOf c' →
    r.braceDepth ≤ (s.lexeme (some x)).braceDepth

/-- What holds of a run behind the first lexemes of a strand: its calls are among them and belong together, and from each on nothing
is less deep in braces. -/
structure Held (s : Strand) (is : List Nat) (r : CallRun) : Prop where
  mem : ∀ c ∈ r.calls, c ∈ is
  leads : ∀ c ∈ r.calls, s.LeadsLine c
  name : ∀ c ∈ r.calls, ∃ edge, s.leftEdge (some c) = some edge ∧ s.qualifiedName edge c = r.name
  depth : ∀ c ∈ r.calls, (s.lexeme (some c)).depth = r.depth
  braceDepth : ∀ c ∈ r.calls, (s.lexeme (some c)).braceDepth = r.braceDepth
  behind : ∀ c ∈ r.calls, ∀ x ∈ is, s.placeOf c ≤ s.placeOf x → r.braceDepth ≤ (s.lexeme (some x)).braceDepth

/-- What visiting a lexeme does to the current run: it ends, stays, takes in the lexeme, or gives way to a run that starts there. It
does not stay where a block that it stands in may be left, and is. -/
inductive Turn (s : Strand) (i : Nat) : Option CallRun → Option CallRun → Prop where
  | ends {o : Option CallRun} : Turn s i o none
  | stays {o : Option CallRun} :
      (∀ r, o = some r → (s.lexeme (some i)).kind.leavesBlock = false ∨ r.braceDepth ≤ (s.lexeme (some i)).braceDepth) → Turn s i o o
  | joins {r : CallRun} {edge : Nat} : s.LeadsLine i → s.leftEdge (some i) = some edge → s.qualifiedName edge i = r.name →
      (s.lexeme (some i)).depth = r.depth → (s.lexeme (some i)).braceDepth = r.braceDepth →
      Turn s i (some r) (some { r with calls := i :: r.calls })
  | opens {o : Option CallRun} {edge : Nat} : s.LeadsLine i → s.leftEdge (some i) = some edge →
      Turn s i o (some ⟨s.qualifiedName edge i, (s.lexeme (some edge)).depth, (s.lexeme (some edge)).braceDepth, [i]⟩)

variable {s : Strand} {i : Nat} {is rest : List Nat} {r r' : CallRun} {o : Option CallRun}

/-- A turn keeps what holds of the current run. -/
theorem Turn.held (hturn : Turn s i o (some r)) (hs : s.WellLinked) (hlevel : s.Level) (hblocks : s.Blockwise)
    (hlinked : s.Linked (is ++ i :: rest)) (h : ∀ r, o = some r → r.Held s is) : r.Held s (is ++ [i]) := by
  have hfront : ∀ {x}, x ∈ is → s.placeOf x < s.placeOf i := fun hx => by
    obtain ⟨p, q, rfl⟩ := List.append_of_mem hx
    exact Strand.Linked.placeOf_lt (p := p) (m := q) (q := rest) (by simpa using hlinked)
  cases hturn with
  | stays hstays =>
    have hr := h r rfl
    refine ⟨fun c hc => List.mem_append_left _ (hr.mem c hc), hr.leads, hr.name, hr.depth, hr.braceDepth, fun c hc x hx hcx => ?_⟩
    rcases List.mem_append.1 hx with hx | hx
    · exact hr.behind c hc x hx hcx
    obtain rfl := List.mem_singleton.1 hx
    refine (hstays r rfl).elim (fun hk => ?_) id
    -- The lexeme in front stands behind the call too, and between the two of them no block is left.
    rcases List.eq_nil_or_concat' is with rfl | ⟨front, y, rfl⟩
    · cases hr.mem c hc
    · have hcy : s.placeOf c ≤ s.placeOf y := by
        rcases List.mem_append.1 (hr.mem c hc) with hmem | hmem
        · obtain ⟨p, q, rfl⟩ := List.append_of_mem hmem
          exact Nat.le_of_lt (Strand.Linked.placeOf_lt (p := p) (m := q) (q := x :: rest) (by simpa using hlinked))
        · rw [List.mem_singleton.1 hmem]
      refine Int.le_trans (hr.behind c hc y (by simp) hcy) ?_
      exact (hblocks.staysIn (p := front) (q := rest) (by simpa using hlinked)).le hk
  | @joins r _ hleads hedge hname hdepth hbraces =>
    have hr := h r rfl
    refine ⟨fun c hc => ?_, List.forall_mem_cons.2 ⟨hleads, hr.leads⟩, List.forall_mem_cons.2 ⟨⟨_, hedge, hname⟩, hr.name⟩,
      List.forall_mem_cons.2 ⟨hdepth, hr.depth⟩, List.forall_mem_cons.2 ⟨hbraces, hr.braceDepth⟩, fun c hc x hx hcx => ?_⟩
    · rcases List.mem_cons.1 hc with rfl | hc
      · simp
      · exact List.mem_append_left _ (hr.mem c hc)
    · rcases List.mem_append.1 hx with hvisited | hx
      · rcases List.mem_cons.1 hc with rfl | hc
        · exact absurd (hfront hvisited) (Nat.not_lt.2 hcx)
        · exact hr.behind c hc x hvisited hcx
      · rw [List.mem_singleton.1 hx]
        exact Int.le_of_eq hbraces.symm
  | opens hleads hedge =>
    have hbraces := hleads.braceDepth_edge hs hblocks hedge
    refine ⟨List.forall_mem_singleton.2 (by simp), List.forall_mem_singleton.2 hleads, List.forall_mem_singleton.2 ⟨_, hedge, rfl⟩,
      List.forall_mem_singleton.2 (hleads.depth_edge hs hlevel hedge).symm, List.forall_mem_singleton.2 hbraces.symm,
      List.forall_mem_singleton.2 fun x hx hix => ?_⟩
    rcases List.mem_append.1 hx with hx | hx
    · exact absurd (hfront hx) (Nat.not_lt.2 hix)
    · rw [List.mem_singleton.1 hx]
      exact Int.le_of_eq hbraces

/-- What holds of a run behind the first lexemes of a strand makes its calls belong together. -/
theorem Held.together (h : r.Held s is) (hs : s.WellLinked) (his : is <+: s.order) : r.Together s where
  leads c hc := by
    obtain ⟨front, newline, m, rest, hlinked, hnewline, hm, -⟩ := (h.leads c hc).exists_front hs
    exact ⟨front, newline, m, rest, hlinked.order_eq, hnewline, fun x hx => Kind.mem_of_qualifies (hm x hx)⟩
  name := h.name
  depth := h.depth
  braceDepth := h.braceDepth
  between c hc c' hc' x hx hcx hxc := by
    obtain ⟨rest, hrest⟩ := his
    have hlinked : s.Linked (is ++ rest) := by
      rw [hrest]
      exact hs
    refine h.behind c hc x ?_ hcx
    -- What is not behind a call that was visited was visited.
    rcases List.mem_append.1 (hrest ▸ hx) with hx | hx
    · exact hx
    · obtain ⟨p, m, rfl⟩ := List.append_of_mem (h.mem c' hc')
      obtain ⟨m', q, rfl⟩ := List.append_of_mem hx
      have hlt : s.placeOf c' < s.placeOf x := Strand.Linked.placeOf_lt (p := p) (m := m ++ m') (q := q) (by simpa using hlinked)
      omega

end CallRun

namespace CallAligner

open CallRun (Turn)
open Stage

variable {s : Strand} {st : Style} {a : CallAligner} {i : Nat} {is : List Nat} {r : CallRun}

/-- Visiting a lexeme is a turn of the current run. -/
theorem turn_visit (ha : Strand.Recolumned s a.strand) (hi : i ∈ s.order) : Turn s i a.run? (a.visit i).run? := by
  have hkind := ha.kind_eq (some i)
  unfold visit
  dsimp only
  split_ifs with hcall hnewline
  · have hleads : ∀ {edge}, a.strand.leftEdge (some i) = some edge → s.LeadsLine i ∧ s.leftEdge (some i) = some edge := by
      intro edge hedge
      rw [ha.leftEdge_eq] at hedge
      exact ⟨⟨hi, hkind.symm.trans hcall, by rw [hedge]; rfl⟩, hedge⟩
    have hstart : ∀ {b : CallAligner} {edge : Nat} (o : Option CallRun), Strand.Recolumned s b.strand →
        a.strand.leftEdge (some i) = some edge → Turn s i o (b.startRun edge i (a.strand.qualifiedName edge i)).run? := by
      intro b edge o hb hedge
      have hrun : (b.startRun edge i (a.strand.qualifiedName edge i)).run? = some
          ⟨a.strand.qualifiedName edge i, (b.strand.lexeme (some edge)).depth, (b.strand.lexeme (some edge)).braceDepth, [i]⟩ := rfl
      rw [hrun, ha.qualifiedName_eq, hb.depth_eq, hb.braceDepth_eq]
      exact .opens (hleads hedge).1 (hleads hedge).2
    unfold visitCall
    cases hedge : a.strand.leftEdge (some i) with
    | none => exact .stays fun r _ => .inl (by rw [← hkind, hcall]; rfl)
    | some edge =>
      dsimp only
      cases hrun : a.run? with
      | none => exact hstart none ha hedge
      | some r =>
        dsimp only
        split_ifs with hsame
        · obtain ⟨hbraces, hdepth, hname⟩ := hsame
          rw [ha.braceDepth_eq] at hbraces
          rw [ha.depth_eq] at hdepth
          rw [ha.qualifiedName_eq] at hname
          exact .joins (hleads hedge).1 (hleads hedge).2 hname hdepth.symm hbraces.symm
        · exact hstart (some r) (ha.trans (recolumned_endRun (a.note _))) hedge
  · refine .stays fun r _ => .inl ?_
    have hline : (s.lexeme (some i)).kind = .newline := by
      rw [← hkind]
      simpa [Lexeme.isNewline] using hnewline
    rw [hline]
    rfl
  · cases hrun : a.run? with
    | none =>
      dsimp only
      rw [hrun]
      exact .ends
    | some r =>
      dsimp only
      split_ifs with hlower
      · exact .ends
      · rw [hrun]
        refine .stays fun r' hr' => .inr ?_
        obtain rfl := Option.some.inj hr'
        rw [ha.braceDepth_eq] at hlower
        exact Int.not_lt.1 hlower

/-- Behind the first lexemes of a strand the current run holds. -/
theorem held_visits (st : Style) (hs : s.WellLinked) (hlevel : s.Level) (hblocks : s.Blockwise) (his : is <+: s.order)
    (hr : (is.foldl visit (start st s)).run? = some r) : r.Held s is := by
  induction is using List.reverseRecOn generalizing r with
  | nil => cases hr
  | append_singleton is i ih =>
    have his' : is <+: s.order := (List.prefix_append is [i]).trans his
    obtain ⟨taken, -, hsteps⟩ := exists_steps_visits st hs his'
    obtain ⟨rest, hrest⟩ := his
    have hlinked : s.Linked (is ++ i :: rest) := by
      rw [List.append_cons, hrest]
      exact hs
    have hturn := turn_visit (i := i) hsteps.recolumned (hlinked.mem_order_iff.1 (by simp))
    rw [List.foldl_concat] at hr
    have hturn' : Turn s i (is.foldl visit (start st s)).run? (some r) := hr ▸ hturn
    exact hturn'.held hs hlevel hblocks hlinked fun r hr => ih his' hr

/-- A strand that was read from a source, as it is or with pairs inserted, is blockwise. -/
theorem blockwise_of_read {src : Source} {ts : List Token} (hts : src.Legible ts)
    (hs : s = src.read ts ∨ ∃ st trace, s = (({ strand := src.read ts, trace } : Grouping).run st).strand) : s.Blockwise := by
  rcases hs with rfl | ⟨st, trace, rfl⟩
  · exact Source.blockwise_read hts
  · exact Grouping.blockwise_run st _ (Strand.wellLinked_ofLexemes _ _) (Grouping.orderly_rows (src.wellRead ts)) rfl
      (Source.blockwise_read hts)

/-- While the calls of a source are aligned, as it was read or with pairs inserted, the calls of every run that there is belong
together, and whatever rows a column group has, pending or passed over, are rows of calls of the current run. The aligner takes steps
from each lexeme to the next one, and at every stage on the way all that waits are rows of calls of the run then. -/
theorem together_of_runs (st : Style) {src : Source} {ts : List Token} (hts : src.Legible ts)
    (hs : s = src.read ts ∨ ∃ st trace, s = (({ strand := src.read ts, trace } : Grouping).run st).strand) :
    (∀ r, Runs st s r → r.Together s) ∧
      (∀ is, is <+: s.order → (∀ g ∈ (is.foldl visit (start st s)).calls :: (is.foldl visit (start st s)).arguments,
        ∀ row ∈ g.pending ++ g.passed, ∃ r, (is.foldl visit (start st s)).run? = some r ∧
          ∃ c ∈ r.calls, ∃ i ∈ s.rowsOf c, row.lexeme = some i) ∧
        ∃ taken, Steps s (Runs st s) ((start st s).stage []) ((is.foldl visit (start st s)).stage taken)) ∧
      ∀ x, Steps s (Runs st s) ((start st s).stage []) x →
        (∀ r, x.run? = some r → Runs st s r) ∧ ∀ p, ∀ o ∈ x.pool p, IsRow s x.calls p o := by
  obtain ⟨hlinked, hlevel⟩ := level_of_read hts hs
  have hblocks := blockwise_of_read hts hs
  have hgathered : ∀ x, Steps s (Runs st s) ((start st s).stage []) x → Gathered s (Runs st s) x := fun x hx =>
    hx.invariant (fun _ _ h hstep => h.step hlinked hlevel hstep) (gathered_start st s)
  refine ⟨fun r ⟨is, his, hr⟩ => (held_visits st hlinked hlevel hblocks his hr).together hlinked his, fun is his => ?_,
    fun x hx => ⟨fun r hr => ((hgathered x hx).run r hr).1, (hgathered x hx).rows⟩⟩
  obtain ⟨taken, -, hsteps⟩ := exists_steps_visits st hlinked his
  refine ⟨fun g hg row hrow => ?_, taken, hsteps⟩
  obtain ⟨p, hp⟩ := List.getElem?_of_mem hg
  have hwaits : row.lexeme ∈ ((is.foldl visit (start st s)).stage taken).pool p := by
    have hpool : ((is.foldl visit (start st s)).stage taken).pool p = g.rows := by
      show poolOf (is.foldl visit (start st s)).groupRows p = g.rows
      rw [poolOf, groupRows, List.getElem?_map, hp]
      rfl
    rw [hpool]
    exact List.mem_map_of_mem hrow
  obtain ⟨c, hc, i, hi, hat⟩ := (hgathered _ hsteps).rows p _ hwaits
  cases hr : (is.foldl visit (start st s)).run? with
  | none =>
    rw [calls_of_none (x := (is.foldl visit (start st s)).stage taken) hr] at hc
    cases hc
  | some r =>
    rw [calls_of_run (x := (is.foldl visit (start st s)).stage taken) hr] at hc
    exact ⟨r, rfl, c, hc, i, List.mem_of_getElem? hat, hi⟩

namespace TogetherAux

/-- Two calls in a block and one behind it. -/
def blockTokens : List Token :=
  [⟨0, .text, Text.ofString "\n"⟩, ⟨1, .punctuation, Text.ofString "\x7b"⟩, ⟨2, .text, Text.ofString "\n"⟩,
    ⟨3, .name, Text.ofString "f"⟩, ⟨4, .punctuation, Text.ofString "("⟩, ⟨5, .number, Text.ofString "1"⟩,
    ⟨6, .punctuation, Text.ofString ");"⟩, ⟨8, .text, Text.ofString "\n"⟩, ⟨9, .name, Text.ofString "f"⟩,
    ⟨10, .punctuation, Text.ofString "("⟩, ⟨11, .number, Text.ofString "2"⟩, ⟨12, .punctuation, Text.ofString ");"⟩,
    ⟨14, .text, Text.ofString "\n"⟩, ⟨15, .punctuation, Text.ofString "\x7d"⟩, ⟨16, .text, Text.ofString "\n"⟩,
    ⟨17, .name, Text.ofString "f"⟩, ⟨18, .punctuation, Text.ofString "("⟩, ⟨19, .number, Text.ofString "3"⟩,
    ⟨20, .punctuation, Text.ofString ");"⟩]

/-- The source that they are cut from. -/
def blockSource : Source := { text := blockTokens.flatMap (·.text) }

end TogetherAux

open TogetherAux in
/-- The calls in the block belong together, and the one behind it is a run of its own. -/
theorem together_of_runs_blockSource :
    (⟨Text.ofString "f", 1, 1, [9, 3]⟩ : CallRun).Together (blockSource.read blockTokens) ∧
      ((blockSource.read blockTokens).order.foldl visit (start {} (blockSource.read blockTokens))).run? =
        some ⟨Text.ofString "f", 0, 0, [17]⟩ :=
  ⟨(together_of_runs {} (show blockSource.Legible blockTokens by decide +kernel) (.inl rfl)).1 _
    ⟨(blockSource.read blockTokens).order.take 14, List.take_prefix _ _, by decide +kernel⟩, by decide +kernel⟩

end CallAligner

end CodeGroom
