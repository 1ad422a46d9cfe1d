import CodeGroom.Diff.Matching
import Mathlib.Data.List.Infix

/-!
# The blocks that two versions have in common

Every block names lines that stand in both versions, and two equal versions have a single block. The search goes through the old
lines row by row, and what a row holds for a new line is how far the lines up to both agree. Of equal versions no row holds more
than the diagonal does, so the longest block lies on the diagonal, and from there it grows over the whole text.
-/

namespace CodeGroom.Diff

variable {skip : Text → Bool} {old new past seen xs ys shared : List Text} {line : Text} {b c : Block} {i j n : Nat}

/-! ## Common starts -/

/-- The number of lines at the start of two lists that are the same, up to the first line to skip. -/
def keptStart (skip : Text → Bool) : List Text → List Text → Nat
  | x :: xs, y :: ys => if y = x && !skip y then keptStart skip xs ys + 1 else 0
  | _, _ => 0

/-- The common start is what is kept when nothing is skipped. -/
theorem commonStart_eq_keptStart (xs ys : List Text) : commonStart xs ys = keptStart (fun _ => false) xs ys := by
  induction xs generalizing ys with
  | nil => cases ys <;> rfl
  | cons x xs ih =>
    cases ys with
    | nil => rfl
    | cons y ys => simp [commonStart, keptStart, ih, eq_comm]

@[simp] theorem keptStart_nil_left (ys : List Text) : keptStart skip [] ys = 0 := by
  cases ys <;> rfl

@[simp] theorem keptStart_nil_right (xs : List Text) : keptStart skip xs [] = 0 := by
  cases xs <;> rfl

/-- What two lists have in common at the start. -/
theorem exists_keptStart (skip : Text → Bool) (xs ys : List Text) :
    ∃ shared xs' ys', xs = shared ++ xs' ∧ ys = shared ++ ys' ∧ shared.length = keptStart skip xs ys := by
  induction xs generalizing ys with
  | nil => exact ⟨[], [], ys, rfl, rfl, (keptStart_nil_left ys).symm⟩
  | cons x xs ih =>
    cases ys with
    | nil => exact ⟨[], x :: xs, [], rfl, rfl, rfl⟩
    | cons y ys =>
      by_cases h : (y = x && !skip y) = true
      · obtain ⟨shared, xs', ys', rfl, rfl, hlen⟩ := ih ys
        obtain rfl : y = x := by simpa using (Bool.and_eq_true_iff.1 h).1
        exact ⟨y :: shared, xs', ys', rfl, rfl, by rw [keptStart, if_pos h, List.length_cons, hlen]⟩
      · exact ⟨[], x :: xs, y :: ys, rfl, rfl, by rw [keptStart, if_neg h, List.length_nil]⟩

/-- No text keeps more with another one than with itself. -/
theorem keptStart_le_left (skip : Text → Bool) (xs ys : List Text) : keptStart skip xs ys ≤ keptStart skip xs xs := by
  induction xs generalizing ys with
  | nil => simp
  | cons x xs ih =>
    cases ys with
    | nil => simp
    | cons y ys =>
      by_cases h : (y = x && !skip y) = true
      · have hxs := ih ys
        rw [keptStart, keptStart, if_pos h, if_pos (by simp at h ⊢; rw [← h.1, h.2])]
        omega
      · simp [keptStart, h]

/-- And neither does the other one. -/
theorem keptStart_le_right (skip : Text → Bool) (xs ys : List Text) : keptStart skip xs ys ≤ keptStart skip ys ys := by
  induction ys generalizing xs with
  | nil => simp
  | cons y ys ih =>
    cases xs with
    | nil => simp
    | cons x xs =>
      by_cases h : (y = x && !skip y) = true
      · have hys := ih xs
        rw [keptStart, keptStart, if_pos h, if_pos (by simp at h ⊢; exact h.2)]
        omega
      · simp [keptStart, h]

/-- No more is kept than there is. -/
theorem keptStart_le_length (skip : Text → Bool) (xs ys : List Text) : keptStart skip xs ys ≤ xs.length := by
  obtain ⟨shared, xs', ys', rfl, -, hlen⟩ := exists_keptStart skip xs ys
  rw [← hlen, List.length_append]
  omega

/-- A text has all of itself in common. -/
theorem commonStart_self (xs : List Text) : commonStart xs xs = xs.length := by
  induction xs with
  | nil => rfl
  | cons x xs ih => rw [commonStart, if_pos rfl, ih, List.length_cons]

/-! ## What the rows hold -/

/-- For each line of a list how far the lines back from it, and `seen` before them, agree with `past`. -/
def lengths (skip : Text → Bool) (past : List Text) : List Text → List Text → List Nat
  | _, [] => []
  | seen, y :: ys => keptStart skip past (y :: seen) :: lengths skip past (y :: seen) ys

/-- Nothing matches in front of the first line. -/
theorem lengths_nil (seen new : List Text) : lengths skip [] seen new = List.replicate new.length 0 := by
  induction new generalizing seen with
  | nil => rfl
  | cons y new ih => rw [lengths, ih, keptStart_nil_left, List.length_cons, List.replicate_succ]

/-- A row of lengths is computed part by part. -/
theorem lengths_append (past seen xs ys : List Text) :
    lengths skip past seen (xs ++ ys) = lengths skip past seen xs ++ lengths skip past (xs.reverse ++ seen) ys := by
  induction xs generalizing seen with
  | nil => rfl
  | cons x xs ih => simp [lengths, ih]

theorem length_lengths (past seen ys : List Text) : (lengths skip past seen ys).length = ys.length := by
  induction ys generalizing seen with
  | nil => rfl
  | cons y ys ih => rw [lengths, List.length_cons, ih, List.length_cons]

/-- What a row holds is how far some part of the lines agrees with `past`. -/
theorem exists_of_mem_lengths {k : Nat} (h : k ∈ lengths skip past seen ys) :
    ∃ front, front <+: ys ∧ k = keptStart skip past (front.reverse ++ seen) := by
  induction ys generalizing seen with
  | nil => cases h
  | cons y ys ih =>
    rcases List.mem_cons.1 h with rfl | h
    · exact ⟨[y], ⟨ys, rfl⟩, rfl⟩
    · obtain ⟨front, hfront, rfl⟩ := ih h
      exact ⟨y :: front, List.cons_prefix_cons.2 ⟨rfl, hfront⟩, by simp⟩

/-- A row from the row before. -/
theorem matchRow_lengths (skip : Text → Bool) (line : Text) (past new : List Text) :
    matchRow skip line new (lengths skip past [] new) = lengths skip (line :: past) [] new := by
  have hrow : ∀ seen, List.zipWith (fun l k => if l = line && !skip l then k + 1 else 0) new
      (keptStart skip past seen :: lengths skip past seen new) = lengths skip (line :: past) seen new := by
    induction new with
    | nil => exact fun _ => rfl
    | cons y new ih =>
      intro seen
      rw [List.zipWith_cons_cons, lengths, lengths, ih]
      rfl
  have hstart := hrow []
  rwa [keptStart_nil_right] at hstart

/-! ## Blocks name common lines -/

/-- The block names lines that stand in both lists, which start at the places `i` and `j` of two texts. -/
def Block.Matches (i j : Nat) (old new : List Text) (b : Block) : Prop :=
  ∃ before behind before' behind' shared : List Text, old = before ++ (shared ++ behind) ∧ new = before' ++ (shared ++ behind') ∧
    b.old = i + before.length ∧ b.new = j + before'.length ∧ b.size = shared.length

/-- What stands in front of a part of a list and behind it. -/
theorem take_drop_around (before shared behind : List Text) :
    (before ++ (shared ++ behind)).take before.length = before ∧
      (before ++ (shared ++ behind)).drop (before.length + shared.length) = behind := by
  refine ⟨List.take_left, ?_⟩
  rw [← List.append_assoc, ← List.length_append, List.drop_left]

namespace Block.Matches

/-- An empty block matches anywhere. -/
theorem empty (old new : List Text) : Matches i j old new ⟨i, j, 0⟩ :=
  ⟨[], old, [], new, [], rfl, rfl, rfl, rfl, rfl⟩

/-- What two lists have in common back from a place is a block that ends there. -/
theorem of_keptStart (skip : Text → Bool) (past old seen new : List Text) :
    Matches 0 0 (past.reverse ++ old) (seen.reverse ++ new)
      ⟨past.length - keptStart skip past seen, seen.length - keptStart skip past seen, keptStart skip past seen⟩ := by
  obtain ⟨shared, past', seen', rfl, rfl, hlen⟩ := exists_keptStart skip past seen
  refine ⟨past'.reverse, old, seen'.reverse, new, shared.reverse, by simp, by simp, ?_, ?_, ?_⟩
  · simp [← hlen]
  · simp [← hlen]
  · simp [← hlen]

/-- Two blocks that follow on each other are one. -/
theorem join (h : b.Matches i j old new) (h' : c.Matches i j old new) (hold : b.old + b.size = c.old)
    (hnew : b.new + b.size = c.new) : Matches i j old new { b with size := b.size + c.size } := by
  obtain ⟨before, behind, before', behind', shared, hsplit, hsplit', ho, hn, hs⟩ := h
  obtain ⟨start, rest, start', rest', more, hmore, hmore', ho', hn', hs'⟩ := h'
  have hstart : start = before ++ shared ∧ more ++ rest = behind := by
    refine List.append_inj (hmore.symm.trans (hsplit.trans (List.append_assoc _ _ _).symm)) ?_
    rw [List.length_append]
    omega
  have hstart' : start' = before' ++ shared ∧ more ++ rest' = behind' := by
    refine List.append_inj (hmore'.symm.trans (hsplit'.trans (List.append_assoc _ _ _).symm)) ?_
    rw [List.length_append]
    omega
  refine ⟨before, rest, before', rest', shared ++ more, ?_, ?_, ho, hn, by rw [List.length_append, hs, hs']⟩
  · rw [hsplit, ← hstart.2, List.append_assoc]
  · rw [hsplit', ← hstart'.2, List.append_assoc]

/-- A block of the lists in front of a place. -/
theorem append_right (h : b.Matches i j xs ys) (old new : List Text) : b.Matches i j (xs ++ old) (ys ++ new) := by
  obtain ⟨before, behind, before', behind', shared, rfl, rfl, ho, hn, hs⟩ := h
  exact ⟨before, behind ++ old, before', behind' ++ new, shared, by simp, by simp, ho, hn, hs⟩

/-- A block of the lists behind a place. -/
theorem append_left (h : b.Matches (i + xs.length) (j + ys.length) old new) : b.Matches i j (xs ++ old) (ys ++ new) := by
  obtain ⟨before, behind, before', behind', shared, rfl, rfl, ho, hn, hs⟩ := h
  refine ⟨xs ++ before, behind, ys ++ before', behind', shared, by simp, by simp, ?_, ?_, hs⟩
  · rw [ho, List.length_append, Nat.add_assoc]
  · rw [hn, List.length_append, Nat.add_assoc]

/-- The lines around a block that are the same as well make it longer. -/
theorem grow (h : b.Matches 0 0 old new) :
    Matches 0 0 old new ⟨b.old - commonStart (old.take b.old).reverse (new.take b.new).reverse,
      b.new - commonStart (old.take b.old).reverse (new.take b.new).reverse,
      b.size + commonStart (old.take b.old).reverse (new.take b.new).reverse +
        commonStart (old.drop (b.old + b.size)) (new.drop (b.new + b.size))⟩ := by
  obtain ⟨before, behind, before', behind', shared, rfl, rfl, ho, hn, hs⟩ := h
  rw [Nat.zero_add] at ho hn
  obtain ⟨htake, hdrop⟩ := take_drop_around before shared behind
  obtain ⟨htake', hdrop'⟩ := take_drop_around before' shared behind'
  rw [ho, hn, hs, htake, htake', hdrop, hdrop', commonStart_eq_keptStart, commonStart_eq_keptStart]
  obtain ⟨back, start, start', hback, hback', hblen⟩ := exists_keptStart (fun _ => false) before.reverse before'.reverse
  obtain ⟨on, rest, rest', rfl, rfl, holen⟩ := exists_keptStart (fun _ => false) behind behind'
  rw [List.reverse_eq_iff, List.reverse_append] at hback hback'
  rw [← hblen, ← holen]
  refine ⟨start.reverse, rest, start'.reverse, rest', back.reverse ++ shared ++ on, ?_, ?_, ?_, ?_, ?_⟩
  · simp [hback]
  · simp [hback']
  · simp [hback]
  · simp [hback']
  · simp
    omega

end Block.Matches

/-- The blocks that end in a row name common lines. -/
theorem matches_bestInRow (seen : List Text) (hbest : b.Matches 0 0 ((line :: past).reverse ++ old) (seen.reverse ++ new)) :
    (bestInRow past.length seen.length (lengths skip (line :: past) seen new) b).Matches 0 0 ((line :: past).reverse ++ old)
      (seen.reverse ++ new) := by
  induction new generalizing seen b with
  | nil => exact hbest
  | cons y new ih =>
    have hsplit : seen.reverse ++ y :: new = (y :: seen).reverse ++ new := by simp
    rw [hsplit] at hbest ⊢
    refine ih (y :: seen) ?_
    split_ifs
    · exact .of_keptStart skip (line :: past) old (y :: seen) new
    · exact hbest

/-- The best block matches. -/
theorem matches_bestBlock (past : List Text) (hbest : b.Matches 0 0 (past.reverse ++ old) new) :
    (bestBlock skip new past.length old (lengths skip past [] new) b).Matches 0 0 (past.reverse ++ old) new := by
  induction old generalizing past b with
  | nil => exact hbest
  | cons line old ih =>
    have hsplit : past.reverse ++ line :: old = (line :: past).reverse ++ old := by simp
    rw [hsplit] at hbest ⊢
    rw [bestBlock, matchRow_lengths]
    exact ih (line :: past) (matches_bestInRow [] hbest)

/-- The longest block matches. -/
theorem matches_longestBlock (skip : Text → Bool) (old new : List Text) : (longestBlock skip old new).Matches 0 0 old new := by
  rw [longestBlock, ← lengths_nil [] new]
  exact (matches_bestBlock [] (.empty old new)).grow

/-- All blocks of two parts name common lines. -/
theorem matches_of_mem_blocksFor (h : b ∈ blocksFor skip n i j old new) : b.Matches i j old new := by
  induction n generalizing i j old new with
  | zero => cases h
  | succ n ih =>
    obtain ⟨before, behind, before', behind', shared, hold, hnew, ho, hn, hs⟩ := matches_longestBlock skip old new
    rw [Nat.zero_add] at ho hn
    simp only [blocksFor] at h
    split_ifs at h
    · cases h
    · cases h
    · generalize longestBlock skip old new = best at h ho hn hs
      subst hold hnew
      obtain ⟨htake, hdrop⟩ := take_drop_around before shared behind
      obtain ⟨htake', hdrop'⟩ := take_drop_around before' shared behind'
      rw [ho, hn, hs, htake, htake', hdrop, hdrop'] at h
      rcases List.mem_append.1 h with h | h
      · exact (ih h).append_right _ _
      · rcases List.mem_cons.1 h with rfl | h
        · exact ⟨before, behind, before', behind', shared, rfl, rfl, rfl, rfl, rfl⟩
        · have hrest := ih h
          rw [← List.append_assoc, ← List.append_assoc]
          refine Block.Matches.append_left ?_
          rwa [List.length_append, List.length_append, ← Nat.add_assoc, ← Nat.add_assoc]

/-- Joined blocks match. -/
theorem matches_of_mem_joinBlocks {bs : List Block} (h : ∀ b ∈ c :: bs, b.Matches i j old new) (hb : b ∈ joinBlocks c bs) :
    b.Matches i j old new := by
  induction bs generalizing c with
  | nil =>
    rw [List.mem_singleton.1 hb]
    exact h c List.mem_cons_self
  | cons d bs ih =>
    rw [joinBlocks] at hb
    split_ifs at hb with hnext
    · refine ih ?_ hb
      intro x hx
      rcases List.mem_cons.1 hx with rfl | hx
      · exact (h c (by simp)).join (h d (by simp)) hnext.1 hnext.2
      · exact h x (by simp [hx])
    · rcases List.mem_cons.1 hb with rfl | hb
      · exact h b List.mem_cons_self
      · exact ih (fun x hx => h x (List.mem_cons_of_mem _ hx)) hb

/-- All blocks of two versions name common lines. -/
theorem matches_of_mem_blocks (h : b ∈ blocks old new) : b.Matches 0 0 old new := by
  refine matches_of_mem_joinBlocks ?_ (List.mem_filter.1 h).1
  intro x hx
  rcases List.mem_cons.1 hx with rfl | hx
  · exact .empty old new
  · exact matches_of_mem_blocksFor hx

/-! ## Equal versions have one block -/

/-- The best of a row is found part by part. -/
theorem bestInRow_append (i j : Nat) (ks ks' : List Nat) (best : Block) :
    bestInRow i j (ks ++ ks') best = bestInRow i (j + ks.length) ks' (bestInRow i j ks best) := by
  induction ks generalizing j best with
  | nil => rfl
  | cons k ks ih =>
    rw [List.cons_append, bestInRow, ih, bestInRow, List.length_cons, Nat.add_assoc, Nat.add_comm 1]

/-- What is no longer than the best block does not change it. -/
theorem bestInRow_of_le {ks : List Nat} {best : Block} (h : ∀ k ∈ ks, k ≤ best.size) : bestInRow i j ks best = best := by
  induction ks generalizing j with
  | nil => rfl
  | cons k ks ih =>
    rw [bestInRow, if_neg (Nat.not_lt.2 (h k List.mem_cons_self))]
    exact ih fun k hk => h k (List.mem_cons_of_mem _ hk)

/-- The block lies on the diagonal, and none there that ends among the lines `past` is longer. -/
structure Block.Leads (skip : Text → Bool) (past : List Text) (b : Block) : Prop where
  old_eq : b.old = b.new
  le_length : b.old + b.size ≤ past.length
  size_le : ∀ tail, tail <:+ past → keptStart skip tail tail ≤ b.size

/-- After one more row. In front of the diagonal a row holds no more than the diagonal of an earlier row, and behind it no more than
its own. -/
theorem Block.Leads.bestInRow (h : b.Leads skip past) (line : Text) (rest : List Text) :
    Block.Leads skip (line :: past)
      (bestInRow past.length 0 (lengths skip (line :: past) [] (past.reverse ++ line :: rest)) b) := by
  have hfront : ∀ k ∈ lengths skip (line :: past) [] past.reverse, k ≤ b.size := by
    intro k hk
    obtain ⟨front, hfront, rfl⟩ := exists_of_mem_lengths hk
    rw [List.append_nil]
    exact (keptStart_le_right _ _ _).trans (h.size_le _ (List.reverse_prefix.1 (by rwa [List.reverse_reverse])))
  have hbehind : ∀ k ∈ lengths skip (line :: past) (line :: past) rest,
      k ≤ keptStart skip (line :: past) (line :: past) := by
    intro k hk
    obtain ⟨front, -, rfl⟩ := exists_of_mem_lengths hk
    exact keptStart_le_left _ _ _
  have hlen := keptStart_le_length skip (line :: past) (line :: past)
  rw [List.length_cons] at hlen
  have hrow : lengths skip (line :: past) [] (past.reverse ++ line :: rest) = lengths skip (line :: past) [] past.reverse ++
      keptStart skip (line :: past) (line :: past) :: lengths skip (line :: past) (line :: past) rest := by
    rw [lengths_append, List.reverse_reverse, List.append_nil, lengths]
  rw [hrow, bestInRow_append, bestInRow_of_le hfront, length_lengths, List.length_reverse, Nat.zero_add, Diff.bestInRow]
  have hsize : ∀ k, b.size ≤ k → keptStart skip (line :: past) (line :: past) ≤ k →
      ∀ tail, tail <:+ line :: past → keptStart skip tail tail ≤ k := by
    intro k hb hk tail htail
    rcases List.suffix_cons_iff.1 htail with rfl | htail
    · exact hk
    · exact (h.size_le tail htail).trans hb
  split_ifs with hlt
  · rw [bestInRow_of_le hbehind]
    exact ⟨rfl, by simp only [List.length_cons]; omega, hsize _ hlt.le le_rfl⟩
  · rw [bestInRow_of_le fun k hk => (hbehind k hk).trans (Nat.not_lt.1 hlt)]
    refine ⟨h.old_eq, ?_, hsize _ le_rfl (Nat.not_lt.1 hlt)⟩
    have hle := h.le_length
    rw [List.length_cons]
    omega

/-- The longest block of equal versions, before it grows, lies on the diagonal. -/
theorem Block.Leads.bestBlock (h : b.Leads skip past) (rest : List Text) :
    Block.Leads skip (past.reverse ++ rest).reverse
      (bestBlock skip (past.reverse ++ rest) past.length rest (lengths skip past [] (past.reverse ++ rest)) b) := by
  induction rest generalizing past b with
  | nil => simpa [Diff.bestBlock] using h
  | cons line rest ih =>
    have hstep := ih (h.bestInRow line rest)
    have hsplit : (line :: past).reverse ++ rest = past.reverse ++ line :: rest := by simp
    rw [hsplit, List.length_cons] at hstep
    rw [Diff.bestBlock, matchRow_lengths]
    exact hstep

/-- The longest block of equal versions is all of them, even if many of their lines are skipped. -/
theorem longestBlock_self (skip : Text → Bool) (new : List Text) : longestBlock skip new new = ⟨0, 0, new.length⟩ := by
  have hstart : Block.Leads skip [] ⟨0, 0, 0⟩ := by
    refine ⟨rfl, le_rfl, ?_⟩
    intro tail htail
    rw [List.suffix_nil.1 htail, keptStart_nil_left]
  have hbest := hstart.bestBlock new
  rw [List.reverse_nil, List.nil_append, lengths_nil, List.length_nil] at hbest
  rw [longestBlock]
  generalize bestBlock skip new 0 new (List.replicate new.length 0) ⟨0, 0, 0⟩ = b at hbest
  have hold := hbest.old_eq
  have hle := hbest.le_length
  rw [List.length_reverse] at hle
  simp only [← hold, commonStart_self, List.length_reverse, List.length_take, List.length_drop]
  -- Back and on from a block on the diagonal all lines are the same.
  rw [Nat.min_eq_left (by omega)]
  congr 1 <;> omega

theorem blocksFor_nil (skip : Text → Bool) (n i j : Nat) (new : List Text) : blocksFor skip n i j [] new = [] := by
  cases n with
  | zero => rfl
  | succ n => rw [blocksFor, if_pos (.inl rfl)]

/-- The only block of equal versions is all of them. -/
theorem blocks_self (new : List Text) (h : new ≠ []) : blocks new new = [⟨0, 0, new.length⟩] := by
  have hlen : new.length ≠ 0 := List.length_eq_zero_iff.not.2 h
  have hblocks : blocksFor (popular new) (new.length + 1) 0 0 new new = [⟨0, 0, new.length⟩] := by
    simp [blocksFor, h, hlen, longestBlock_self, blocksFor_nil]
  rw [blocks, hblocks]
  simp [joinBlocks, Nat.pos_of_ne_zero hlen]

end CodeGroom.Diff
