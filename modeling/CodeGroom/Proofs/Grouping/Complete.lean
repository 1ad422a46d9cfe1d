import CodeGroom.Proofs.Grouping.Inserted

/-!
# Runs come to their ends

Whether brackets match or not, no countdown is spent before the scan or the pass that it is for: a run is what it would be without
countdowns. A scan outlives no countdown because it comes nearer to its end with each step. A pass does not either: it scans only
from lexemes that were there before the run, and of these there are fewer ahead behind each of its scans.
-/

namespace CodeGroom

namespace Card

variable {k n : Nat} {l l' : List Card}

/-- What is no new lexeme for more names is none for fewer. -/
theorem Grows.of_le (h : Grows n l l') (hk : k ≤ n) : Grows k l l' := by
  have hold : l'.filter (·.name < n) = l.filter (·.name < n) := by
    refine ((h.sublist.filter _).eq_of_length ?_).symm
    rw [← List.countP_eq_length_filter, ← List.countP_eq_length_filter, h.old]
  have hfewer : ∀ m : List Card, m.countP (·.name < k) = (m.filter (·.name < n)).countP (·.name < k) := by
    intro m
    rw [List.countP_filter]
    refine List.countP_congr fun x _ => ?_
    simp only [Bool.and_eq_true, decide_eq_true_eq]
    omega
  exact ⟨h.sublist, by rw [hfewer l', hold, ← hfewer l]⟩

end Card

namespace Grouping

open Entry

variable {s₀ : Strand} {es es' : List Entry} {g g' : Grouping} {st : Style} {v : Visitor} {i j k n : Nat} {at? : Option Nat}

/-! ## Runs without countdowns -/

/-- A walk of a pass without a countdown, from a lexeme on and up to the end of the strand. -/
inductive Visitor.Walks (v : Visitor) : Option Nat → Grouping → Grouping → Prop where
  | ended {g : Grouping} : v.Walks none g g
  | pass {i : Nat} {g g' : Grouping} :
      v.stop? g i = none → v.Walks ((v.visit g i).1.strand.nextCode (some i)) (v.visit g i).1 g' → v.Walks (some i) g g'
  | scan {i j : Nat} {g g₁ g' : Grouping} :
      v.stop? g i = some j → ScansWhole g (regionFromTo i j) g₁ → v.Walks (g₁.strand.nextCode (some j)) g₁ g' →
      v.Walks (some i) g g'

/-- A pass without a countdown. -/
inductive Visitor.Passes (v : Visitor) (st : Style) (g : Grouping) : Grouping → Prop where
  | off : g.allowed st = false → v.Passes st g g.noteOff
  | on {g' : Grouping} : g.allowed st = true → v.Walks g.strand.first g g' → v.Passes st g g'

/-- A pass that is made if the style asks for it. -/
inductive Visitor.PassesIf (v : Visitor) (st : Style) (g : Grouping) : Bool → Grouping → Prop where
  | skipped : v.PassesIf st g false g
  | made {g' : Grouping} : v.Passes st g g' → v.PassesIf st g true g'

/-- A run without countdowns. -/
inductive Runs (st : Style) (g : Grouping) : Grouping → Prop where
  | off : g.allowed st = false → Runs st g g.noteOff
  | on {g₁ g₂ g₃ : Grouping} :
      g.allowed st = true → conditionVisitor.PassesIf st g st.groupConditions g₁ →
      (valueVisitor .assign).PassesIf st g₁ st.groupAssignments g₂ →
      (valueVisitor .returnWord).PassesIf st g₂ st.groupReturns g₃ → Runs st g (g₃.note (.pairsCounted g₃.inserted))

/-! ## They end in one way -/

/-- A scan ends in one way. -/
theorem Scans.unique {top r : Region} {c : Cursor} {g₁ g₂ : Grouping} (h : Scans top r c g g₁) (h' : Scans top r c g g₂) :
    g₂ = g₁ := by
  induction h generalizing g₂ with
  | done hlook =>
    cases h' with
    | done hlook' => rw [hlook] at hlook'; cases hlook'; rfl
    | onward hlook' _ => rw [hlook] at hlook'; cases hlook'
    | inward hlook' _ _ => rw [hlook] at hlook'; cases hlook'
  | onward hlook _ ih =>
    cases h' with
    | done hlook' => rw [hlook] at hlook'; cases hlook'
    | onward hlook' hrest => rw [hlook] at hlook'; cases hlook'; exact ih hrest
    | inward hlook' _ _ => rw [hlook] at hlook'; cases hlook'
  | inward hlook _ _ ihi ih =>
    cases h' with
    | done hlook' => rw [hlook] at hlook'; cases hlook'
    | onward hlook' _ => rw [hlook] at hlook'; cases hlook'
    | inward hlook' hinner hrest =>
      rw [hlook] at hlook'
      cases hlook'
      obtain rfl := ihi hinner
      exact ih hrest

theorem ScansWhole.unique {r : Region} {g₁ g₂ : Grouping} (h : ScansWhole g r g₁) (h' : ScansWhole g r g₂) : g₂ = g₁ := by
  cases h with
  | blocked hblocked =>
    cases h' with
    | blocked _ => rfl
    | scanned hopen _ => rw [hblocked] at hopen; cases hopen
  | scanned hopen hscan =>
    cases h' with
    | blocked hblocked => rw [hblocked] at hopen; cases hopen
    | scanned _ hscan' => exact hscan.unique hscan'

/-- A walk ends in one way. -/
theorem Visitor.Walks.unique {g₁ g₂ : Grouping} (h : v.Walks at? g g₁) (h' : v.Walks at? g g₂) : g₂ = g₁ := by
  induction h generalizing g₂ with
  | ended =>
    cases h'
    rfl
  | pass hstop _ ih =>
    cases h' with
    | pass _ hrest => exact ih hrest
    | scan hstop' _ _ => rw [hstop] at hstop'; cases hstop'
  | scan hstop hscan _ ih =>
    cases h' with
    | pass hstop' _ => rw [hstop] at hstop'; cases hstop'
    | scan hstop' hscan' hrest =>
      rw [hstop] at hstop'
      cases hstop'
      obtain rfl := hscan.unique hscan'
      exact ih hrest

/-- A pass ends in one way. -/
theorem Visitor.Passes.unique {g₁ g₂ : Grouping} (h : v.Passes st g g₁) (h' : v.Passes st g g₂) : g₂ = g₁ := by
  cases h with
  | off hoff =>
    cases h' with
    | off _ => rfl
    | on hon _ => rw [hoff] at hon; cases hon
  | on hon hwalk =>
    cases h' with
    | off hoff => rw [hoff] at hon; cases hon
    | on _ hwalk' => exact hwalk.unique hwalk'

theorem Visitor.PassesIf.unique {b : Bool} {g₁ g₂ : Grouping} (h : v.PassesIf st g b g₁) (h' : v.PassesIf st g b g₂) : g₂ = g₁ := by
  cases h with
  | skipped =>
    cases h'
    rfl
  | made hpass =>
    cases h' with
    | made hpass' => exact hpass.unique hpass'

/-- A run ends in one way. -/
theorem Runs.unique {g₁ g₂ : Grouping} (h : Runs st g g₁) (h' : Runs st g g₂) : g₂ = g₁ := by
  cases h with
  | off hoff =>
    cases h' with
    | off _ => rfl
    | on hon _ _ _ => rw [hoff] at hon; cases hon
  | on hon hconditions hassignments hreturns =>
    cases h' with
    | off hoff => rw [hoff] at hon; cases hon
    | on _ hconditions' hassignments' hreturns' =>
      obtain rfl := hconditions.unique hconditions'
      obtain rfl := hassignments.unique hassignments'
      obtain rfl := hreturns.unique hreturns'
      rfl

/-! ## The passes come to their ends -/

/-- The visits find regions with the ends that regions have. -/
def Visitor.Seeks (v : Visitor) : Prop :=
  ∀ (g : Grouping) (i j : Nat), v.stop? g i = some j → ∃ k, Delimits (g.strand.lexeme (some i)).kind k ∧ g.endOf? i k = some j

/-- The visits of the pass over conditions find such regions. -/
theorem seeks_conditions : conditionVisitor.Seeks := fun _ _ _ => delimits_of_conditionEnd

/-- The visits of the passes over values find such regions. -/
theorem seeks_values {kind : Kind} (hkind : kind = .assign ∨ kind = .returnWord) : (valueVisitor kind).Seeks :=
  fun _ _ _ => delimits_of_valueEnd hkind

theorem Enlarged.of_le (h : Enlarged n es es') (hk : k ≤ n) : Enlarged k es es' := ⟨h.holds, h.grows.of_le hk⟩

/-- A region starts with a lexeme that was there before the run. -/
theorem Showing.start_old (h : Showing s₀ g es) (hs₀ : s₀.WellLinked) {e : Entry} {kind : Kind} (he : e ∈ es)
    (hk : Delimits e.kind kind) : e.name < s₀.size := by
  have hrows := hs₀.shows
  rw [← hrows.length_eq]
  by_contra hnew
  have hparen := (h.grown.isParenthesis (fun u hu => hrows.length_eq ▸ hrows.name_lt hu) _ (List.mem_map_of_mem he)
    (Nat.not_lt.1 hnew)).kind
  obtain ⟨hout, -, hclosing⟩ := hk.starts
  rcases hparen with hopening | hclosing'
  · rw [show e.kind = .opening .paren from hopening] at hout
    cases hout
  · exact hclosing hclosing'

/-- Behind the end of a scanned region there is less to go than from its start on, whatever was inserted. -/
theorem Showing.nearer_scan (h : Showing s₀ g es) (h' : Showing s₀ g' es') (hs₀ : s₀.WellLinked) (hes : Enlarged s₀.size es es')
    {kind : Kind} (hi : ∃ e ∈ es, e.name = i ∧ Delimits e.kind kind) (hij : Before es i j) (hj : CodeAt es j) :
    (wayFrom s₀.size es' (g'.strand.nextCode (some j))).Less (wayFrom s₀.size es (some i)) := by
  obtain ⟨e, he, rfl, hk⟩ := hi
  obtain ⟨w, hw, rfl, hwcode⟩ := hj
  have hold := h.start_old hs₀ he hk
  obtain ⟨hout, hcomment, -⟩ := hk.starts
  have hcode := isLayout_of_outside hout hcomment
  obtain ⟨p, m, q, p', q', rfl, hcards, hcards', hway, hway'⟩ := h.exists_ways h' hes he hw hij hcode hwcode
  rw [hway, hway']
  refine Card.distance_behind_old (u := e.card :: cards m) (hcards ▸ hcards' ▸ hes.grows)
    (hcards' ▸ nodup_cards h'.shows.linked.nodup) ?_
  exact List.countP_pos_iff.2 ⟨e.card, by simp, decide_eq_true hold⟩

/-- A walk comes to its end before a countdown that outlasts its way. -/
theorem Visitor.Seeks.walks_visitAll (hv : v.Seeks) (hs₀ : s₀.WellLinked) {t : Countdown} (h : Showing s₀ g es)
    (hat : ∀ i, at? = some i → CodeAt es i) (ht : t.Outlasts (wayFrom s₀.size es at?)) :
    v.Walks at? g (visitAll v.visit t at? g) := by
  induction t generalizing at? g es with
  | spent => exact ht.elim
  | step rest ih =>
    cases at? with
    | none => exact .ended
    | some i =>
      have hi := hat i rfl
      have hmore : ∀ {es' : List Entry} {g' : Grouping} {k : Nat}, Showing s₀ g' es' → k ∈ Entry.names es' →
          (wayFrom s₀.size es' (g'.strand.nextCode (some k))).Less (wayFrom s₀.size es (some i)) →
          v.Walks (g'.strand.nextCode (some k)) g'
            (visitAll v.visit (rest g'.strand.size) (g'.strand.nextCode (some k)) g') := fun h' hk hless =>
        ih _ h' (fun _ hnext => (h'.shows.before_nextCode hk hnext).2) (ht _ _ (wayFrom_within h'.shows) hless)
      have hvisit : visitAll v.visit (.step rest) (some i) g = visitAll v.visit (rest (v.visit g i).1.strand.size)
          ((v.visit g i).1.strand.nextCode (some (v.visit g i).2)) (v.visit g i).1 := rfl
      rw [hvisit]
      cases hstop : v.stop? g i with
      | none =>
        obtain ⟨hstrand, hpairs, hgo⟩ := v.visit_of_none hstop
        have h' := h.congr hstrand hpairs
        rw [hgo]
        refine .pass hstop (hmore h' ?_ (h'.nearer_step s₀.size hi))
        obtain ⟨e, he, rfl, -⟩ := hi
        exact Entry.mem_names he
      | some j =>
        obtain ⟨kind, hk, hj⟩ := hv g i j hstop
        have hmem : i ∈ g.strand.order := by
          obtain ⟨e, he, rfl, -⟩ := hi
          rw [h.shows.order_eq]
          exact Entry.mem_names he
        obtain ⟨hscan, es', h', hes⟩ := h.scansWhole hmem hk hj
        obtain ⟨e, he, hname, hekind, hij, hbound⟩ := h.exists_ends hmem hk hj
        have hle : s₀.size ≤ es.length := by
          rw [h.grown.length_eq, hs₀.shows.length_eq]
          exact Nat.le_add_right _ _
        rw [v.visit_of_stop hstop]
        exact .scan hstop hscan (hmore h'.toShowing (hij.mono hes.holds).mem_right
          (h.nearer_scan h'.toShowing hs₀ (hes.of_le hle) ⟨e, he, hname, hekind⟩ hij hbound.codeAt))

/-- Where a region is scanned there is code. -/
theorem Visitor.Seeks.codeAt (hv : v.Seeks) (h : Showing s₀ g es) {e : Entry} (he : e ∈ es) (hstop : v.stop? g e.name = some j) :
    e.isLayout = false := by
  obtain ⟨kind, hk, -⟩ := hv g e.name j hstop
  rw [h.shows.kind_eq he] at hk
  exact isLayout_of_outside hk.starts.1 hk.starts.2.1

/-- A pass comes to its end. -/
theorem Visitor.Seeks.passes_pass (hv : v.Seeks) (hs₀ : s₀.WellLinked) (h : Showing s₀ g es) : v.Passes st g (g.pass st v.visit) := by
  unfold pass
  cases hallowed : g.allowed st with
  | false => exact .off hallowed
  | true =>
    refine .on hallowed ?_
    cases hfirst : g.strand.first with
    | none => exact .ended
    | some i =>
      have hmem : i ∈ g.strand.order := by
        have hhead := h.shows.linked.wellLinked.first_eq
        rw [hfirst] at hhead
        exact List.mem_of_head? hhead.symm
      obtain ⟨e, he, rfl⟩ := h.shows.exists_entry hmem
      cases hcode : e.isLayout with
      | false =>
        refine hv.walks_visitAll hs₀ h (fun k hk => ?_) (Countdown.outlasts_full _)
        cases hk
        exact ⟨e, he, rfl, hcode⟩
      | true =>
        -- The strand starts with layout, from which no region is scanned; the walk goes on at the first code.
        have hstop : v.stop? g e.name = none := by
          rw [Option.eq_none_iff_forall_ne_some]
          intro j hj
          rw [hv.codeAt h he hj] at hcode
          cases hcode
        obtain ⟨hstrand, hpairs, hgo⟩ := v.visit_of_none hstop
        have h' := h.congr hstrand hpairs
        generalize hway : wayFrom s₀.size es ((v.visit g e.name).1.strand.nextCode (some e.name)) = way
        obtain ⟨rest, hfull, hmore⟩ := (Countdown.outlasts_full ⟨way.old + 1, 0, 0⟩).exists_step
        have hvisit : visitAll v.visit .full (some e.name) g = visitAll v.visit (rest (v.visit g e.name).1.strand.size)
            ((v.visit g e.name).1.strand.nextCode (some e.name)) (v.visit g e.name).1 := by
          rw [hfull, visitAll]
          dsimp only
          rw [hgo]
        rw [if_pos rfl, hvisit]
        refine .pass hstop (hv.walks_visitAll hs₀ h' (fun k hk => (h'.shows.before_nextCode (Entry.mem_names he) hk).2) ?_)
        exact hway ▸ hmore _ _ (hway ▸ wayFrom_within h'.shows) (hway ▸ .inl (Nat.lt_succ_self _))

/-! ## The run comes to its end -/

/-- What a pass leaves, if it is made. -/
theorem Visitor.Seeks.exists_showing (hv : v.Seeks) (st : Style) (on : Bool) (h : Showing s₀ g es) :
    ∃ es', Showing s₀ (if on then g.pass st v.visit else g) es' := by
  have hstart : Shown s₀ [] g.strand g.pairs := shown_iff.2 ⟨es, h⟩
  refine shown_iff.1 (v.passIf_keeps (P := Shown s₀) on Shown.wellLinked ?_ (fun _ hsr => hsr) hstart)
  intro made g' i j h' hi hstop _
  obtain ⟨kind, hk, hj⟩ := hv g' i j hstop
  exact h'.keptByScan hi hk hj

/-- A pass comes to its end, if it is made. -/
theorem Visitor.Seeks.passesIf (hv : v.Seeks) (hs₀ : s₀.WellLinked) (on : Bool) (h : Showing s₀ g es) :
    v.PassesIf st g on (if on then g.pass st v.visit else g) := by
  cases on with
  | false => exact .skipped
  | true => exact .made (hv.passes_pass hs₀ h)

/-- A run of a strand as it was read does what a run without countdowns does. -/
theorem runs_run (st : Style) (g : Grouping) (hlinked : g.strand.WellLinked) (horderly : Orderly g.strand.rows)
    (hpairs : g.pairs = []) : Runs st g (g.run st) := by
  have h : Showing g.strand g g.strand.rows := ⟨hlinked.shows, hpairs ▸ .start, horderly, .refl⟩
  cases hallowed : g.allowed st with
  | false =>
    rw [run, hallowed, if_neg Bool.false_ne_true]
    exact .off hallowed
  | true =>
    obtain ⟨es₁, h₁⟩ := seeks_conditions.exists_showing st st.groupConditions h
    obtain ⟨es₂, h₂⟩ := (seeks_values (.inl rfl)).exists_showing st st.groupAssignments h₁
    rw [run, hallowed, if_pos rfl]
    exact .on hallowed (seeks_conditions.passesIf hlinked _ h) ((seeks_values (.inl rfl)).passesIf hlinked _ h₁)
      ((seeks_values (.inr rfl)).passesIf hlinked _ h₂)

end Grouping

open Grouping

/-- Whatever the source, whether its brackets match or not, a run comes to its end, and it is what it would be without countdowns. -/
theorem Source.runs_iff (src : Source) (ts : List Token) (st : Style) (trace : Trace) (g : Grouping) :
    Runs st { strand := src.read ts, trace } g ↔ g = ({ strand := src.read ts, trace } : Grouping).run st := by
  have hruns := runs_run st { strand := src.read ts, trace } (Strand.wellLinked_ofLexemes _ _) (orderly_rows (src.wellRead ts)) rfl
  constructor
  · exact fun h => hruns.unique h
  · rintro rfl
    exact hruns

end CodeGroom
