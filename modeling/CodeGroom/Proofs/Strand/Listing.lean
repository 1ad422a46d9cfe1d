import CodeGroom.Proofs.Strand.Order
import Mathlib.Data.List.Find

/-!
# Listings

A listing shows the lexemes of a strand in their order, each with its name and apart from its columns, which every insertion
changes in the rest of its line. On a strand that is listed, walks are searches in the listing and insertions are insertions into
it.
-/

namespace CodeGroom

/-- The lexeme apart from its columns. -/
def Lexeme.bare (x : Lexeme) : Lexeme := { x with startColumn := 0, endColumn := 0, column := 0 }

/-- A lexeme of a listing, apart from its columns, and its name. -/
structure Entry where
  name : Nat
  lexeme : Lexeme
deriving DecidableEq, Repr

/-- Whether a walk over code passes over the entry: it is a comment or a line break. -/
def Entry.isLayout (e : Entry) : Bool := Skip.layout.passes e.lexeme

/-- Whether the entry belongs to a directive. -/
def Entry.inDirective (e : Entry) : Bool := e.lexeme.inDirective

/-- The kind of the entry. -/
def Entry.kind (e : Entry) : Kind := e.lexeme.kind

/-- Layout are comments and line breaks. -/
theorem Entry.isLayout_iff {e : Entry} : e.isLayout = true ↔ e.kind = .comment ∨ e.kind = .newline := by
  simp [isLayout, kind, Skip.passes, Lexeme.isComment, Lexeme.isNewline]

/-- Code is no line break. -/
theorem Entry.kind_ne_newline_of_code {e : Entry} (he : e.isLayout = false) : e.kind ≠ .newline := by
  intro hkind
  rw [isLayout_iff.2 (.inr hkind)] at he
  cases he

/-- The depth of the entry. -/
def Entry.depth (e : Entry) : Int := e.lexeme.depth

/-- The names of entries. -/
def Entry.names (es : List Entry) : List Nat := es.map (·.name)

@[simp] theorem Entry.names_append (es es' : List Entry) : names (es ++ es') = names es ++ names es' := List.map_append

@[simp] theorem Entry.names_cons (e : Entry) (es : List Entry) : names (e :: es) = e.name :: names es := rfl

@[simp] theorem Entry.names_nil : names [] = [] := rfl

/-- The entry with its lexeme changed. -/
def Entry.change (f : Lexeme → Lexeme) (e : Entry) : Entry := ⟨e.name, f e.lexeme⟩

@[simp] theorem Entry.names_map_change (f : Lexeme → Lexeme) (es : List Entry) : names (es.map (change f)) = names es := by
  simp [names, change, Function.comp_def]

/-- An entry is listed by its name. -/
theorem Entry.mem_names {e : Entry} {es : List Entry} (h : e ∈ es) : e.name ∈ names es := List.mem_map_of_mem h

namespace Strand

variable {s : Strand} {es p q m : List Entry} {e a z : Entry}

/-- The strand holds the lexemes of a listing in its order. -/
structure Lists (s : Strand) (es : List Entry) : Prop where
  linked : s.Linked (Entry.names es)
  bare_eq : ∀ e ∈ es, (s.lexeme (some e.name)).bare = e.lexeme

/-- The listing of a strand. -/
def entries (s : Strand) : List Entry := s.order.map fun i => ⟨i, (s.lexeme (some i)).bare⟩

/-- The entries of a strand are named in its order. -/
theorem names_entries (s : Strand) : Entry.names s.entries = s.order := by
  simp [entries, Entry.names, Function.comp_def]

/-- A well-linked strand lists its entries. -/
theorem WellLinked.lists (h : s.WellLinked) : s.Lists s.entries where
  linked := by rwa [names_entries]
  bare_eq e he := by
    obtain ⟨i, -, rfl⟩ := List.mem_map.1 he
    rfl

/-- A lexeme in the order of a strand, with what stands before it and behind it. -/
theorem WellLinked.exists_split (h : s.WellLinked) {i : Nat} (hi : i ∈ s.order) : ∃ p e q, s.Lists (p ++ e :: q) ∧ i = e.name := by
  rw [← names_entries] at hi
  obtain ⟨e, he, rfl⟩ := List.mem_map.1 hi
  obtain ⟨p, q, hsplit⟩ := List.append_of_mem he
  have hlists := h.lists
  rw [hsplit] at hlists
  exact ⟨p, e, q, hlists, rfl⟩

namespace Lists

/-- The names of a listing are the order of the strand. -/
theorem order_eq (h : s.Lists es) : s.order = Entry.names es := h.linked.order_eq

/-- A strand has one listing only. -/
theorem entries_eq (h : s.Lists es) : s.entries = es := by
  rw [entries, h.order_eq, Entry.names, List.map_map]
  conv_rhs => rw [← List.map_id es]
  refine List.map_congr_left ?_
  intro e he
  simp only [Function.comp, h.bare_eq e he, id]

/-! What a walk asks of a lexeme can be read off its entry. -/

/-- An entry has the kind of its lexeme. -/
theorem kind_eq (h : s.Lists es) (he : e ∈ es) : (s.lexeme (some e.name)).kind = e.kind := by
  rw [Entry.kind, ← h.bare_eq e he]
  rfl

/-- An entry has the depth of its lexeme. -/
theorem depth_eq (h : s.Lists es) (he : e ∈ es) : (s.lexeme (some e.name)).depth = e.depth := by
  rw [Entry.depth, ← h.bare_eq e he]
  rfl

theorem owner_eq (h : s.Lists es) (he : e ∈ es) : (s.lexeme (some e.name)).owner = e.lexeme.owner := by
  rw [← h.bare_eq e he]
  rfl

theorem inDirective_eq (h : s.Lists es) (he : e ∈ es) : s.inDirective e.name = e.inDirective := by
  rw [Entry.inDirective, ← h.bare_eq e he]
  rfl

theorem passes_eq (h : s.Lists es) (he : e ∈ es) : Skip.layout.passes (s.lexeme (some e.name)) = e.isLayout := by
  rw [Entry.isLayout, ← h.bare_eq e he]
  rfl

/-- A search among the names of entries is a search among the entries. -/
theorem find?_names {f : Nat → Bool} {g : Entry → Bool} (h : ∀ e ∈ q, f e.name = g e) :
    (Entry.names q).find? f = (q.find? g).map (·.name) := by
  rw [Entry.names, List.find?_map]
  congr 1
  exact List.find?_congr h

/-- Entries with the same name are the same. -/
theorem name_injOn (h : s.Lists es) (ha : a ∈ es) (hz : z ∈ es) (heq : a.name = z.name) : a = z :=
  List.inj_on_of_nodup_map h.linked.nodup ha hz heq

/-- What is behind a lexeme is listed behind its entry. -/
theorem after_eq (h : s.Lists (p ++ e :: q)) : s.after e.name = Entry.names q := by
  have hl := h.linked
  rw [Entry.names_append, Entry.names_cons] at hl
  exact hl.after_eq

/-- What is in front of a lexeme is listed in front of its entry. -/
theorem before_eq (h : s.Lists (p ++ e :: q)) : s.before e.name = Entry.names p.reverse := by
  have hl := h.linked
  rw [Entry.names_append, Entry.names_cons] at hl
  rw [hl.before_eq, Entry.names, Entry.names, List.map_reverse]

/-- The next code behind a lexeme is the first one that is listed behind it. -/
theorem nextCode_eq (h : s.Lists (p ++ e :: q)) :
    s.nextCode (some e.name) = (q.find? (!·.isLayout)).map (·.name) := by
  rw [nextCode, next, ahead, restrict, h.after_eq]
  refine find?_names ?_
  intro x hx
  rw [h.passes_eq (List.mem_append_right _ (List.mem_cons_of_mem _ hx))]

/-- The next lexeme of a kind at a depth, for a walk from outside directives. -/
theorem nextOfKind_eq (h : s.Lists (p ++ e :: q)) (he : e.inDirective = false) (kind : Kind) (d : Int) :
    s.nextOfKind (some e.name) kind (some d) .sameSide =
      (q.find? fun x => !x.inDirective && (x.kind = kind && x.depth = d)).map (·.name) := by
  have hmem : e ∈ p ++ e :: q := by simp
  have hdir : s.inDirective e.name = false := by rw [h.inDirective_eq hmem, he]
  rw [nextOfKind, ahead, hdir, restrict, h.after_eq, List.find?_filter]
  refine find?_names ?_
  intro x hx
  have hx' : x ∈ p ++ e :: q := List.mem_append_right _ (List.mem_cons_of_mem _ hx)
  simp only [h.inDirective_eq hx', h.kind_eq hx', h.depth_eq hx', Option.all_some, Bool.decide_and, Bool.decide_eq_true]

/-- The bracket that closes another one. -/
theorem partner_eq (h : s.Lists (p ++ e :: q)) {b : Bracket} (hk : e.kind = .opening b) :
    s.partner (some e.name) = (q.find? fun x => x.kind = .closing b && x.depth = e.depth).map (·.name) := by
  have hmem : e ∈ p ++ e :: q := by simp
  have hcloser : (s.lexeme (some e.name)).kind.closer? = some (.closing b) := by rw [h.kind_eq hmem, hk]; rfl
  rw [partner, hcloser, Option.bind_some, nextOfKind, ahead, restrict, h.after_eq]
  refine find?_names ?_
  intro x hx
  have hx' : x ∈ p ++ e :: q := List.mem_append_right _ (List.mem_cons_of_mem _ hx)
  simp only [h.kind_eq hx', h.depth_eq hx', h.depth_eq hmem, Option.all_some]

/-- The last code in front of a lexeme outside directives. -/
theorem prev_eq (h : s.Lists (p ++ e :: q)) (he : e.inDirective = false) :
    s.prev .layout .sameSide (some e.name) =
      (p.reverse.find? fun x => !x.inDirective && !x.isLayout).map (·.name) := by
  have hmem : e ∈ p ++ e :: q := by simp
  have hdir : s.inDirective e.name = false := by rw [h.inDirective_eq hmem, he]
  rw [prev, behind, hdir, restrict, h.before_eq, List.find?_filter]
  refine find?_names ?_
  intro x hx
  have hx' : x ∈ p ++ e :: q := List.mem_append_left _ (List.mem_reverse.1 hx)
  simp only [h.inDirective_eq hx', h.passes_eq hx', Bool.decide_and, Bool.decide_eq_true]

/-- What is between two lexemes is listed between their entries. -/
theorem between_eq (h : s.Lists (p ++ a :: (m ++ z :: q))) :
    s.between (some a.name) (some z.name) = Entry.names m := by
  have hlinked := h.linked
  simp only [Entry.names_append, Entry.names_cons] at hlinked
  exact hlinked.between_eq

/-! Insertions and changes, as they show in the listing. -/

/-- A listing after an insertion: the new lexeme is listed where it was put, all else as before. -/
theorem of_insertBetween {prev next : Option Nat} {x : Lexeme} (h : s.Lists (p ++ q))
    (hl : (s.insertBetween prev next x).Linked (Entry.names p ++ s.size :: Entry.names q)) :
    (s.insertBetween prev next x).Lists (p ++ ⟨s.size, x.bare⟩ :: q) where
  linked := by rwa [Entry.names_append, Entry.names_cons]
  bare_eq e he := by
    by_cases hnew : e = ⟨s.size, x.bare⟩
    · rw [hnew, lexeme_insertBetween_new]
    · have hold : e ∈ p ++ q := by
        simp only [List.mem_append, List.mem_cons] at he ⊢
        tauto
      rw [lexeme_insertBetween (h.linked.lt_size (Entry.mem_names hold)), h.bare_eq e hold]

/-- A lexeme inserted in front of another one is listed there. -/
theorem insertBefore (h : s.Lists (p ++ e :: q)) (x : Lexeme) :
    (s.insertBefore (some e.name) x).Lists (p ++ ⟨s.size, x.bare⟩ :: e :: q) := by
  have hl := h.linked
  rw [Entry.names_append, Entry.names_cons] at hl
  refine h.of_insertBetween ?_
  rw [Entry.names_cons]
  exact hl.insertBefore x

/-- A lexeme inserted behind another one is listed there. -/
theorem insertAfter (h : s.Lists (p ++ e :: q)) (x : Lexeme) :
    (s.insertAfter (some e.name) x).Lists (p ++ e :: ⟨s.size, x.bare⟩ :: q) := by
  have hl := h.linked
  rw [Entry.names_append, Entry.names_cons] at hl
  have hsplit : s.Lists ((p ++ [e]) ++ q) := by rwa [List.append_assoc, List.singleton_append]
  have hinsert : (s.insertAfter (some e.name) x).Lists ((p ++ [e]) ++ ⟨s.size, x.bare⟩ :: q) := by
    refine hsplit.of_insertBetween ?_
    rw [Entry.names_append, Entry.names_cons, Entry.names_nil, List.append_assoc, List.singleton_append]
    exact hl.insertAfter x
  rwa [List.append_assoc, List.singleton_append] at hinsert

/-- A change of columns does not show in a listing. -/
theorem bare_modify {f : Lexeme → Lexeme} {i j : Nat} (hf : ∀ x, (f x).bare = x.bare) :
    ((s.modify i f).lexeme (some j)).bare = (s.lexeme (some j)).bare := by
  by_cases hj : j = i
  · subst hj
    by_cases hi : j < s.size
    · rw [lexeme_modify_self hi, hf]
    · have hnone : s.cells[j]? = none := Array.getElem?_eq_none (Nat.not_lt.1 hi)
      simp [lexeme, Strand.modify, Array.getElem?_modify, hnone]
  · rw [lexeme_modify_of_ne hj]

/-- A change of columns does not show. -/
theorem modifyAll_of_bare {f : Lexeme → Lexeme} (h : s.Lists es) (hf : ∀ x, (f x).bare = x.bare) (is : List Nat) :
    (s.modifyAll is f).Lists es := by
  induction is generalizing s with
  | nil => exact h
  | cons i is ih => exact ih ⟨h.linked.modify f, fun e he => by rw [bare_modify hf, h.bare_eq e he]⟩

/-- Shifting a line does not show in a listing. -/
theorem shiftLine (h : s.Lists es) (i : Option Nat) (n : Int) : (s.shiftLine i n).Lists es := by
  have hshift : ∀ x : Lexeme, (x.shift n).bare = x.bare := fun _ => rfl
  exact h.modifyAll_of_bare hshift (s.restWithBreak i)

/-- A change of some lexemes shows in their entries. -/
theorem modifyAll_change {f : Lexeme → Lexeme} (h : s.Lists (p ++ m ++ q)) (hf : ∀ x, (f x).bare = f x.bare) :
    (s.modifyAll (Entry.names m) f).Lists (p ++ m.map (Entry.change f) ++ q) := by
  induction m generalizing s p with
  | nil => exact h
  | cons e m ih =>
    have hl := h.linked
    have hne : ∀ x ∈ p ++ (m ++ q), x.name ≠ e.name := by
      intro x hx heq
      have hnodup := hl.nodup
      simp only [List.append_assoc, List.cons_append, Entry.names_append, Entry.names_cons, List.nodup_middle] at hnodup
      refine (List.nodup_cons.1 hnodup).1 ?_
      rw [← heq, ← Entry.names_append, ← Entry.names_append]
      exact Entry.mem_names hx
    have hstep : (s.modify e.name f).Lists ((p ++ [e.change f]) ++ m ++ q) := by
      refine ⟨?_, ?_⟩
      · have hnames : Entry.names ((p ++ [e.change f]) ++ m ++ q) = Entry.names (p ++ (e :: m) ++ q) := by
          simp [Entry.change]
        rw [hnames]
        exact hl.modify f
      · intro x hx
        by_cases hxe : x = e.change f
        · rw [hxe]
          have hi : e.name < s.size := hl.lt_size (Entry.mem_names (by simp))
          show ((s.modify e.name f).lexeme (some e.name)).bare = f e.lexeme
          rw [lexeme_modify_self hi, hf, h.bare_eq e (by simp)]
        · have hx' : x ∈ p ++ (m ++ q) := by
            simp only [List.mem_append, List.mem_singleton] at hx ⊢
            tauto
          rw [lexeme_modify_of_ne (hne x hx'), h.bare_eq x]
          simp only [List.mem_append, List.mem_cons] at hx' ⊢
          tauto
    have hrest := ih hstep
    rw [List.map_cons]
    simp only [List.append_assoc, List.cons_append] at hrest ⊢
    exact hrest

end Lists

end Strand

end CodeGroom
