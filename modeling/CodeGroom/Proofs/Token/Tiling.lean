import CodeGroom.Token.Basic
import Mathlib.Data.List.Basic

/-!
# Tilings

Tokens tile a text when each one starts where the one before stopped and they leave nothing out. Cutting tokens at line feeds and
joining them again keeps a tiling; behind both, every token is a line feed or free of line feeds.
-/

namespace CodeGroom

/-- The tokens tile a text that starts at a place: each one starts where the one before stopped, and together they spell the
text. -/
inductive Token.Tiles : Nat → Text → List Token → Prop where
  | nil (pos : Nat) : Tiles pos [] []
  | cons {pos : Nat} {rest : Text} {t : Token} {ts : List Token} :
      t.start = pos → Tiles t.stop rest ts → Tiles pos (t.text ++ rest) (t :: ts)

namespace Token

/-- Whether a token is a line feed, or has symbols and no line feed among them. -/
def IsPiece (t : Token) : Prop := t.text = [Text.lineFeed] ∨ t.text ≠ [] ∧ Text.lineFeed ∉ t.text

/-- No tokens tile the empty text only. -/
theorem tiles_nil_iff {pos : Nat} {t : Text} : Tiles pos t [] ↔ t = [] :=
  ⟨fun h => by cases h; rfl, fun h => h ▸ .nil pos⟩

/-- Tokens tile a text if the first one starts it and the others tile the rest. -/
theorem tiles_cons_iff {pos : Nat} {t : Text} {u : Token} {us : List Token} :
    Tiles pos t (u :: us) ↔ u.start = pos ∧ u.text <+: t ∧ Tiles u.stop (t.drop u.text.length) us := by
  constructor
  · intro h
    cases h with
    | cons hs hrest => exact ⟨hs, List.prefix_append _ _, by rwa [List.drop_left]⟩
  · rintro ⟨hs, ⟨rest, rfl⟩, hrest⟩
    rw [List.drop_left] at hrest
    exact .cons hs hrest

instance decidableTiles : (pos : Nat) → (t : Text) → (us : List Token) → Decidable (Tiles pos t us)
  | _, _, [] => decidable_of_iff _ tiles_nil_iff.symm
  | _, t, u :: us =>
    have := decidableTiles u.stop (t.drop u.text.length) us
    decidable_of_iff _ tiles_cons_iff.symm

/-- Tokens of two texts one behind the other tile both. -/
theorem Tiles.append {pos : Nat} {t u : Text} {ts us : List Token} (h : Tiles pos t ts)
    (h' : Tiles (pos + t.length) u us) : Tiles pos (t ++ u) (ts ++ us) := by
  induction h with
  | nil pos => simpa using h'
  | cons hs _ ih =>
    rw [List.append_assoc, List.cons_append]
    refine .cons hs (ih ?_)
    rwa [List.length_append, ← Nat.add_assoc, ← hs] at h'

/-- The tokens that the parts of a text become. -/
def ofParts (cls : TokenClass) (parts : List (Nat × Text)) : List Token := parts.map fun (pos, part) => ⟨pos, cls, part⟩

/-- The parts of a text tile it. -/
theorem tiles_cutText (cls : TokenClass) (pos : Nat) (t : Text) : Tiles pos t (ofParts cls (cutText pos t)) := by
  induction t generalizing pos with
  | nil => exact .nil pos
  | cons x rest ih =>
    have hrest := ih (pos + 1)
    unfold cutText
    split_ifs with hx
    · exact .cons (t := ⟨pos, cls, [x]⟩) rfl hrest
    · cases hc : cutText (pos + 1) rest with
      | nil =>
        rw [hc] at hrest
        cases hrest
        exact .cons (t := ⟨pos, cls, [x]⟩) rfl (.nil _)
      | cons p more =>
        obtain ⟨p, t⟩ := p
        rw [hc] at hrest
        dsimp only
        split_ifs with ht
        · exact .cons (t := ⟨pos, cls, [x]⟩) rfl hrest
        · cases hrest with
          | cons hs hmore =>
            refine .cons (t := ⟨pos, cls, x :: t⟩) rfl ?_
            have hstop : Token.stop ⟨pos, cls, x :: t⟩ = Token.stop ⟨p, cls, t⟩ := by
              simp only [stop, List.length_cons] at hs ⊢
              omega
            rwa [hstop]

/-- Cutting a text at line ends makes pieces. -/
theorem isPiece_of_mem_cutText {cls : TokenClass} {pos : Nat} {t : Text} :
    ∀ u ∈ ofParts cls (cutText pos t), u.IsPiece := by
  induction t generalizing pos with
  | nil => simp [ofParts, cutText]
  | cons x rest ih =>
    have hrest := @ih (pos + 1)
    have hone : Text.lineFeed ≠ x → IsPiece ⟨pos, cls, [x]⟩ := fun hx => .inr ⟨by simp, by simpa using hx⟩
    unfold cutText
    split_ifs with hx
    · intro u hu
      rcases List.mem_cons.1 hu with rfl | hu
      · exact .inl (by rw [hx])
      · exact hrest u hu
    · cases hc : cutText (pos + 1) rest with
      | nil =>
        intro u hu
        rw [List.mem_singleton.1 hu]
        exact hone (Ne.symm hx)
      | cons p more =>
        obtain ⟨p, t⟩ := p
        rw [hc] at hrest
        dsimp only
        split_ifs with ht
        · intro u hu
          rcases List.mem_cons.1 hu with rfl | hu
          · exact hone (Ne.symm hx)
          · exact hrest u hu
        · intro u hu
          rcases List.mem_cons.1 hu with rfl | hu
          · have hp := (hrest _ List.mem_cons_self).resolve_left ht
            exact .inr ⟨by simp, by simpa using ⟨Ne.symm hx, hp.2⟩⟩
          · exact hrest u (List.mem_cons_of_mem _ hu)

/-- Cutting tokens at their line feeds keeps a tiling. -/
theorem Tiles.cutLines {pos : Nat} {t : Text} {ts : List Token} (h : Tiles pos t ts) : Tiles pos t (cutLines ts) := by
  induction h with
  | nil pos => exact .nil pos
  | @cons pos rest t ts hs _ ih =>
    have ht := tiles_cutText t.cls t.start t.text
    subst hs
    exact ht.append ih

/-- And so does cutting tokens. -/
theorem isPiece_of_mem_cutLines {ts : List Token} : ∀ u ∈ cutLines ts, u.IsPiece := by
  intro u hu
  obtain ⟨t, -, hu⟩ := List.mem_flatMap.1 hu
  exact isPiece_of_mem_cutText u hu

/-- Joining a token with those that continue it keeps a tiling. -/
theorem Tiles.mergeFrom {pos : Nat} {t : Token} {text : Text} {ts : List Token} (h : Tiles pos text (t :: ts)) :
    Tiles pos text (mergeFrom t ts) := by
  induction ts generalizing pos t text with
  | nil => exact h
  | cons u us ih =>
    unfold Token.mergeFrom
    cases h with
    | cons hs h =>
      split_ifs with hj
      · cases h with
        | cons hu h =>
          rw [← List.append_assoc]
          refine ih (.cons (t := { t with text := t.text ++ u.text }) hs ?_)
          have hstop : Token.stop { t with text := t.text ++ u.text } = u.stop := by
            simp only [stop, List.length_append] at hu ⊢
            omega
          rwa [hstop]
      · exact .cons hs (ih h)

/-- What is joined has no line feed. -/
theorem isPiece_of_joins {t u : Token} (ht : t.IsPiece) (hu : u.IsPiece) (h : t.joins u) :
    IsPiece { t with text := t.text ++ u.text } := by
  simp only [joins, Bool.and_eq_true, decide_eq_true_eq] at h
  obtain ⟨⟨hsome, hsame⟩, -⟩ := h
  have hjoint : ∀ v : Token, v.joint?.isSome → v.text ≠ [Text.lineFeed] := fun v hv hlf => by simp [joint?, hlf] at hv
  have ht := ht.resolve_left (hjoint t hsome)
  have hu := hu.resolve_left (hjoint u (hsame ▸ hsome))
  exact .inr ⟨by simp [ht.1], by simpa using ⟨ht.2, hu.2⟩⟩

/-- Merging what joins leaves pieces. -/
theorem isPiece_of_mem_mergeFrom {t : Token} {ts : List Token} (h : ∀ u ∈ t :: ts, u.IsPiece) :
    ∀ u ∈ Token.mergeFrom t ts, u.IsPiece := by
  induction ts generalizing t with
  | nil => exact h
  | cons u us ih =>
    unfold Token.mergeFrom
    have ht := h t List.mem_cons_self
    have hu := h u (List.mem_cons_of_mem _ List.mem_cons_self)
    have hus : ∀ v ∈ us, v.IsPiece := fun v hv => h v (List.mem_cons_of_mem _ (List.mem_cons_of_mem _ hv))
    split_ifs with hj
    · refine ih ?_
      intro v hv
      rcases List.mem_cons.1 hv with rfl | hv
      · exact isPiece_of_joins ht hu hj
      · exact hus v hv
    · intro v hv
      rcases List.mem_cons.1 hv with rfl | hv
      · exact ht
      · exact ih (fun w hw => h w (List.mem_cons_of_mem _ hw)) v hv

/-- What the reader is given for tokens that tile a text tiles it too. -/
theorem Tiles.mergeRuns {pos : Nat} {text : Text} {ts : List Token} (h : Tiles pos text ts) :
    Tiles pos text (mergeRuns ts) := by
  cases ts with
  | nil => exact h
  | cons t ts => exact h.mergeFrom

theorem isPiece_of_mem_mergeRuns {ts : List Token} (h : ∀ u ∈ ts, u.IsPiece) : ∀ u ∈ Token.mergeRuns ts, u.IsPiece := by
  cases ts with
  | nil => exact h
  | cons t ts => exact isPiece_of_mem_mergeFrom h

/-- No piece is empty. -/
theorem IsPiece.text_ne_nil {t : Token} (h : t.IsPiece) : t.text ≠ [] := by
  rcases h with h | ⟨h, -⟩
  · rw [h]
    exact List.cons_ne_nil _ _
  · exact h

/-- Whatever a lexer hands over, every token that is read has symbols. -/
theorem text_ne_nil_of_mem_pieces {ts : List Token} : ∀ t ∈ mergeRuns (cutLines ts), t.text ≠ [] :=
  fun t ht => (isPiece_of_mem_mergeRuns isPiece_of_mem_cutLines t ht).text_ne_nil

/-- Cutting tokens adds no class. -/
theorem cls_of_mem_cutLines {t : Token} {ts : List Token} (h : t ∈ cutLines ts) : ∃ u ∈ ts, t.cls = u.cls := by
  obtain ⟨u, hu, ht⟩ := List.mem_flatMap.1 h
  obtain ⟨part, -, rfl⟩ := List.mem_map.1 ht
  exact ⟨u, hu, rfl⟩

/-- What was merged has the class of one of its parts. -/
theorem cls_of_mem_mergeFrom {t v : Token} {ts : List Token} (h : v ∈ mergeFrom t ts) : ∃ u ∈ t :: ts, v.cls = u.cls := by
  induction ts generalizing t with
  | nil => exact ⟨t, List.mem_cons_self, congrArg cls (List.mem_singleton.1 h)⟩
  | cons u us ih =>
    unfold mergeFrom at h
    split_ifs at h with hj
    · obtain ⟨w, hw, hcls⟩ := ih h
      rcases List.mem_cons.1 hw with rfl | hw
      · exact ⟨t, List.mem_cons_self, hcls⟩
      · exact ⟨w, List.mem_cons_of_mem _ (List.mem_cons_of_mem _ hw), hcls⟩
    · rcases List.mem_cons.1 h with rfl | h
      · exact ⟨v, List.mem_cons_self, rfl⟩
      · obtain ⟨w, hw, hcls⟩ := ih h
        exact ⟨w, List.mem_cons_of_mem _ hw, hcls⟩

/-- Joining tokens adds no class. -/
theorem cls_of_mem_mergeRuns {t : Token} {ts : List Token} (h : t ∈ mergeRuns ts) : ∃ u ∈ ts, t.cls = u.cls := by
  cases ts with
  | nil => cases h
  | cons u us => exact cls_of_mem_mergeFrom h

end Token

end CodeGroom
