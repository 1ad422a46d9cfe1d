import CodeGroom.Proofs.Token.Tiling
import Mathlib.Data.List.Chain
import Mathlib.Data.List.Forall2

/-!
# Pieces of tokens

What the reader is given is made of the tokens of a lexer in two turns. Each token is cut into the longest parts that are a line
feed or hold none. Then each part is joined with those that continue it, as far as that goes. Both turns keep every symbol at its
place, whatever the tokens are: they may be empty, leave gaps or overlap.
-/

namespace CodeGroom.Token

variable {t u : Token} {us run : List Token}

/-- A token is cut into parts that tile it and have its class. Each one is a line feed or holds none, and next to a part without
line feeds there is a line feed. -/
structure CutInto (t : Token) (us : List Token) : Prop where
  tiles : Tiles t.start t.text us
  isPiece : ∀ u ∈ us, u.IsPiece
  cls_eq : ∀ u ∈ us, u.cls = t.cls
  longest : us.IsChain fun u v => u.text = [Text.lineFeed] ∨ v.text = [Text.lineFeed]

/-- Whether a token is an operator or punctuation. -/
def IsSign (t : Token) : Prop := t.cls.within .operator = true ∨ t.cls.within .punctuation = true

/-- Two tokens of one group: both are operators or punctuation, or both are strings, and neither is a line feed. -/
structure Akin (t u : Token) : Prop where
  left : t.text ≠ [Text.lineFeed]
  right : u.text ≠ [Text.lineFeed]
  group : t.IsSign ∧ u.IsSign ∨ t.cls.within .string = true ∧ u.cls.within .string = true

/-- A token is joined from parts that tile it, of which neighbours are of one group. It starts with the first one and has its class,
and its joint is that of each. -/
structure JoinedFrom (us : List Token) (t : Token) : Prop where
  tiles : Tiles t.start t.text us
  first : ∃ u rest, us = u :: rest ∧ u.start = t.start ∧ u.cls = t.cls
  alike : us.IsChain Akin
  joint_eq : ∀ u ∈ us, u.joint? = t.joint?

theorem Tiles.flatMap_text {pos : Nat} {t : Text} (h : Tiles pos t us) : us.flatMap text = t := by
  induction h with
  | nil => rfl
  | cons _ _ ih => rw [List.flatMap_cons, ih]

/-- Symbols that stand next to each other in a token are cut apart at line feeds only. -/
theorem isChain_cutText (cls : TokenClass) (pos : Nat) (t : Text) :
    (ofParts cls (cutText pos t)).IsChain fun u v => u.text = [Text.lineFeed] ∨ v.text = [Text.lineFeed] := by
  induction t generalizing pos with
  | nil => exact .nil
  | cons x rest ih =>
    have hrest := ih (pos + 1)
    unfold cutText
    split_ifs with hx
    · exact List.isChain_cons.2 ⟨fun v _ => .inl (by rw [hx]), hrest⟩
    · cases hc : cutText (pos + 1) rest with
      | nil => exact .singleton _
      | cons p more =>
        obtain ⟨p, part⟩ := p
        rw [hc] at hrest
        dsimp only
        split_ifs with hp
        · exact List.isChain_cons_cons.2 ⟨.inr hp, hrest⟩
        · obtain ⟨hnext, hmore⟩ := List.isChain_cons.1 hrest
          exact List.isChain_cons.2 ⟨fun v hv => .inr ((hnext v hv).resolve_left hp), hmore⟩

/-- What `cutLines` makes of one token. -/
theorem cutInto_cutText (t : Token) : t.CutInto (ofParts t.cls (cutText t.start t.text)) where
  tiles := tiles_cutText t.cls t.start t.text
  isPiece := isPiece_of_mem_cutText
  cls_eq u hu := by
    obtain ⟨part, -, rfl⟩ := List.mem_map.1 hu
    rfl
  longest := isChain_cutText t.cls t.start t.text

/-- Tokens are cut one by one. -/
theorem exists_parts (ts : List Token) : ∃ parts, cutLines ts = parts.flatten ∧ List.Forall₂ CutInto ts parts := by
  refine ⟨ts.map fun t => ofParts t.cls (cutText t.start t.text), by rw [cutLines, List.flatMap_def]; rfl, ?_⟩
  rw [List.forall₂_map_right_iff, List.forall₂_same]
  exact fun t _ => cutInto_cutText t

/-- Cutting keeps all symbols. -/
theorem flatMap_text_cutLines (ts : List Token) : (cutLines ts).flatMap text = ts.flatMap text := by
  rw [cutLines, List.flatMap_assoc]
  congr 1
  funext t
  exact (tiles_cutText t.cls t.start t.text).flatMap_text

theorem joint?_eq_operators : t.joint? = some .operators ↔ t.text ≠ [Text.lineFeed] ∧ t.IsSign := by
  simp only [joint?, IsSign, Bool.or_eq_true]
  split_ifs <;> simp_all

/-- A string is neither an operator nor punctuation. -/
theorem not_isSign_of_string (h : t.cls.within .string = true) : ¬t.IsSign := by
  obtain ⟨more, hpath⟩ := List.isPrefixOf_iff_prefix.1 h
  simp [IsSign, TokenClass.within, ← hpath, TokenClass.string, TokenClass.operator, TokenClass.punctuation]

theorem joint?_eq_strings : t.joint? = some .strings ↔ t.text ≠ [Text.lineFeed] ∧ t.cls.within .string = true := by
  have hsign := not_isSign_of_string (t := t)
  simp only [joint?, IsSign, Bool.or_eq_true] at hsign ⊢
  split_ifs <;> simp_all

/-- Tokens of one group are those with one joint. -/
theorem akin_iff : t.Akin u ↔ ∃ g, t.joint? = some g ∧ u.joint? = some g := by
  constructor
  · rintro ⟨ht, hu, ⟨htsign, husign⟩ | ⟨htstring, hustring⟩⟩
    · exact ⟨.operators, joint?_eq_operators.2 ⟨ht, htsign⟩, joint?_eq_operators.2 ⟨hu, husign⟩⟩
    · exact ⟨.strings, joint?_eq_strings.2 ⟨ht, htstring⟩, joint?_eq_strings.2 ⟨hu, hustring⟩⟩
  · rintro ⟨g, htg, hug⟩
    cases g with
    | operators =>
      obtain ⟨ht, htsign⟩ := joint?_eq_operators.1 htg
      obtain ⟨hu, husign⟩ := joint?_eq_operators.1 hug
      exact ⟨ht, hu, .inl ⟨htsign, husign⟩⟩
    | strings =>
      obtain ⟨ht, htstring⟩ := joint?_eq_strings.1 htg
      obtain ⟨hu, hustring⟩ := joint?_eq_strings.1 hug
      exact ⟨ht, hu, .inr ⟨htstring, hustring⟩⟩

/-- A token continues one of its group that stops where it starts. -/
theorem joins_iff : t.joins u = true ↔ t.Akin u ∧ t.stop = u.start := by
  rw [akin_iff, joins, Bool.and_eq_true, Bool.and_eq_true, decide_eq_true_eq, decide_eq_true_eq, Option.isSome_iff_exists]
  refine and_congr_left' ?_
  constructor
  · rintro ⟨⟨g, htg⟩, hsame⟩
    exact ⟨g, htg, hsame ▸ htg⟩
  · rintro ⟨g, htg, hug⟩
    exact ⟨⟨g, htg⟩, htg.trans hug.symm⟩

theorem joint?_eq_of_joins (h : t.joins u = true) : t.joint? = u.joint? := by
  obtain ⟨g, htg, hug⟩ := akin_iff.1 (joins_iff.1 h).1
  rw [htg, hug]

/-- A token joined with one that continues it keeps its joint. -/
theorem joint?_append (h : t.joins u) : joint? { t with text := t.text ++ u.text } = t.joint? := by
  obtain ⟨⟨ht, hu, -⟩, -⟩ := joins_iff.1 h
  -- Only a line feed has another joint than its class says, and no line feed comes from joining.
  have hne : t.text ++ u.text ≠ [Text.lineFeed] := by
    intro hnew
    rcases List.append_eq_singleton_iff.1 hnew with ⟨-, hu'⟩ | ⟨ht', -⟩
    · exact hu hu'
    · exact ht ht'
  simp [joint?, hne, ht]

namespace JoinedFrom

theorem refl (t : Token) : JoinedFrom [t] t where
  tiles := by
    have hone : Tiles t.start (t.text ++ []) [t] := .cons rfl (.nil _)
    rwa [List.append_nil] at hone
  first := ⟨t, [], rfl, rfl, rfl⟩
  alike := .singleton t
  joint_eq u hu := by rw [List.mem_singleton.1 hu]

/-- One more part that continues what is joined. -/
theorem extend (h : JoinedFrom run t) (hj : t.joins u) : JoinedFrom (run ++ [u]) { t with text := t.text ++ u.text } where
  tiles := by
    have hone : Tiles u.start u.text [u] := (refl u).tiles
    rw [← (joins_iff.1 hj).2] at hone
    exact h.tiles.append hone
  first := by
    obtain ⟨v, rest, rfl, hstart, hcls⟩ := h.first
    exact ⟨v, rest ++ [u], rfl, hstart, hcls⟩
  alike := by
    obtain ⟨g, htg, hug⟩ := akin_iff.1 (joins_iff.1 hj).1
    refine List.isChain_append.2 ⟨h.alike, .singleton u, fun v hv w hw => ?_⟩
    obtain rfl := Option.some.inj hw
    exact akin_iff.2 ⟨g, (h.joint_eq v (List.mem_of_getLast? hv)).trans htg, hug⟩
  joint_eq v hv := by
    rw [joint?_append hj]
    rcases List.mem_append.1 hv with hv | hv
    · exact h.joint_eq v hv
    · rw [List.mem_singleton.1 hv, joint?_eq_of_joins hj]

end JoinedFrom

/-- What has been joined and the tokens behind it, joined as far as they continue it and so on. -/
theorem exists_runs_mergeFrom (h : JoinedFrom run t) (us : List Token) :
    ∃ runs, run ++ us = runs.flatten ∧ List.Forall₂ JoinedFrom runs (mergeFrom t us) := by
  -- What has been joined so far grows along the tokens; it is closed where the next one does not continue it.
  induction us generalizing run t with
  | nil => exact ⟨[run], by simp, .cons h .nil⟩
  | cons u us ih =>
    unfold mergeFrom
    split_ifs with hj
    · obtain ⟨runs, hflatten, hruns⟩ := ih (h.extend hj)
      exact ⟨runs, by rw [← hflatten, List.append_assoc, List.singleton_append], hruns⟩
    · obtain ⟨runs, hflatten, hruns⟩ := ih (JoinedFrom.refl u)
      exact ⟨run :: runs, by rw [List.flatten_cons, ← hflatten, List.singleton_append], .cons h hruns⟩

/-- Joining cuts the tokens into runs and makes one token of each. -/
theorem exists_runs (us : List Token) : ∃ runs, us = runs.flatten ∧ List.Forall₂ JoinedFrom runs (mergeRuns us) := by
  cases us with
  | nil => exact ⟨[], rfl, .nil⟩
  | cons u us => exact exists_runs_mergeFrom (.refl u) us

/-- Joining keeps all symbols. -/
theorem flatMap_text_mergeRuns (us : List Token) : (mergeRuns us).flatMap text = us.flatMap text := by
  obtain ⟨runs, hflatten, hruns⟩ := exists_runs us
  have hsame : ∀ {runs vs}, List.Forall₂ JoinedFrom runs vs → vs.flatMap text = runs.flatten.flatMap text := by
    intro runs vs h
    induction h with
    | nil => rfl
    | cons hrun _ ih => rw [List.flatMap_cons, List.flatten_cons, List.flatMap_append, ih, hrun.tiles.flatMap_text]
  rw [hsame hruns, ← hflatten]

/-- What is joined from a token on begins with that token, as far as its predecessor can see. -/
theorem joins_head_mergeFrom (t u : Token) (us : List Token) : ∀ v ∈ (mergeFrom u us).head?, t.joins v = t.joins u := by
  induction us generalizing u with
  | nil =>
    intro v hv
    rw [← Option.some.inj hv]
  | cons w us ih =>
    unfold mergeFrom
    split_ifs with hj
    · intro v hv
      rw [ih _ v hv, joins, joint?_append hj, joins]
    · intro v hv
      rw [← Option.some.inj hv]

/-- Of what has been joined nothing continues the token in front of it. -/
theorem isChain_mergeFrom (t : Token) (us : List Token) : (mergeFrom t us).IsChain fun u v => u.joins v = false := by
  induction us generalizing t with
  | nil => exact .singleton _
  | cons u us ih =>
    unfold mergeFrom
    split_ifs with hj
    · exact ih _
    · refine List.isChain_cons.2 ⟨fun v hv => ?_, ih u⟩
      rw [joins_head_mergeFrom t u us v hv]
      simpa using hj

theorem isChain_mergeRuns (us : List Token) : (mergeRuns us).IsChain fun u v => u.joins v = false := by
  cases us with
  | nil => exact .nil
  | cons u us => exact isChain_mergeFrom u us

/-- Where no token continues the one in front of it, nothing is joined. -/
theorem mergeRuns_eq_self (h : us.IsChain fun u v => u.joins v = false) : mergeRuns us = us := by
  have hfrom : ∀ (t : Token) (us : List Token), (t :: us).IsChain (fun u v => u.joins v = false) → mergeFrom t us = t :: us := by
    intro t us h
    induction us generalizing t with
    | nil => rfl
    | cons u us ih =>
      obtain ⟨hj, hrest⟩ := List.isChain_cons_cons.1 h
      rw [mergeFrom, hj, ih u hrest]
      rfl
  cases us with
  | nil => rfl
  | cons u us => exact hfrom u us h

/-- Whatever the tokens are, each is cut into the longest parts that are a line feed or hold none. These are joined in runs, one
token from each, without a loss, across no line feed and no gap and only within a group, and as far as that goes: no token is left
that continues the one in front of it, and a second time nothing is joined. -/
theorem pieces_joined (ts : List Token) :
    (∃ parts, cutLines ts = parts.flatten ∧ List.Forall₂ CutInto ts parts) ∧
    (∃ runs, cutLines ts = runs.flatten ∧ List.Forall₂ JoinedFrom runs (mergeRuns (cutLines ts))) ∧
    (mergeRuns (cutLines ts)).flatMap text = (cutLines ts).flatMap text ∧
    (cutLines ts).flatMap text = ts.flatMap text ∧
    ((mergeRuns (cutLines ts)).IsChain fun u v => ¬(u.Akin v ∧ u.stop = v.start)) ∧
    mergeRuns (mergeRuns (cutLines ts)) = mergeRuns (cutLines ts) := by
  have hchain := isChain_mergeRuns (cutLines ts)
  refine ⟨exists_parts ts, exists_runs (cutLines ts), flatMap_text_mergeRuns (cutLines ts), flatMap_text_cutLines ts,
    hchain.imp fun u v huv => ?_, mergeRuns_eq_self hchain⟩
  rw [← joins_iff, huv]
  exact Bool.false_ne_true

end CodeGroom.Token
