import CodeGroom.Diff.Unified
import CodeGroom.Proofs.Diff.Matching

/-!
# When a diff is empty

A diff is empty exactly if the two versions have the same lines. There is no hunk if there is no change at all or a single range
that is the same; then one block takes in both versions, and what it names stands in both.
-/

namespace CodeGroom.Diff

variable {old new : List Text} {bs : List Block} {c : Change} {cs group : List Change} {i j n m : Nat}

/-- Nothing lies between two places and the next block just if the block starts there or in front of them. -/
theorem gapBefore_eq_nil_iff : gapBefore i j n m = [] ↔ n ≤ i ∧ m ≤ j := by
  unfold gapBefore
  split_ifs with h
  · simp
    omega
  · simp
    omega

theorem changesFrom_eq_nil (h : changesFrom n m i j bs = []) : bs = [] ∧ n ≤ i ∧ m ≤ j := by
  cases bs with
  | nil => exact ⟨rfl, gapBefore_eq_nil_iff.1 h⟩
  | cons b bs =>
    rw [changesFrom] at h
    simp at h

/-- Where all is one range that is the same there is one block, with nothing in front of it or behind it. -/
theorem changesFrom_eq_singleton (h : changesFrom n m i j bs = [c]) (hsame : c.same = true) :
    ∃ b, bs = [b] ∧ b.old ≤ i ∧ b.new ≤ j ∧ n ≤ b.old + b.size ∧ m ≤ b.new + b.size := by
  cases bs with
  | nil =>
    rw [changesFrom, gapBefore] at h
    split_ifs at h
    rw [← List.singleton_inj.1 h] at hsame
    cases hsame
  | cons b bs =>
    rw [changesFrom] at h
    obtain ⟨hgap, hrest⟩ : gapBefore i j b.old b.new = [] ∧
        changesFrom n m (b.old + b.size) (b.new + b.size) bs = [] := by
      have hlen := congrArg List.length h
      simp only [List.length_append, List.length_cons, List.length_nil] at hlen
      exact ⟨List.length_eq_zero_iff.1 (by omega), List.length_eq_zero_iff.1 (by omega)⟩
    obtain ⟨rfl, hn, hm⟩ := changesFrom_eq_nil hrest
    obtain ⟨ho, hnew⟩ := gapBefore_eq_nil_iff.1 hgap
    exact ⟨b, rfl, ho, hnew, hn, hm⟩

/-! ## Hunks -/

theorem length_mapLast (f : Change → Change) (cs : List Change) : (mapLast f cs).length = cs.length := by
  induction cs with
  | nil => rfl
  | cons c cs ih =>
    cases cs with
    | nil => rfl
    | cons d cs => simpa [mapLast] using ih

theorem length_trimmed (cs : List Change) : (trimmed cs).length = cs.length := by
  cases cs with
  | nil => rfl
  | cons c cs => rw [trimmed, length_mapLast, List.length_cons, List.length_cons]

theorem Change.same_lastLines (c : Change) : c.lastLines.same = c.same := by
  unfold lastLines
  split_ifs <;> rfl

theorem Change.same_firstLines (c : Change) : c.firstLines.same = c.same := by
  unfold firstLines
  split_ifs <;> rfl

/-- Of a range that is the same only a few lines are left. -/
theorem Change.length_firstLines (h : c.same = true) : c.firstLines.oldStop - c.firstLines.oldStart ≤ context := by
  simp only [firstLines, h, if_true]
  omega

theorem cutHunks_ne_nil (group cs : List Change) : cutHunks group cs ≠ [] := by
  induction cs generalizing group with
  | nil => simp [cutHunks]
  | cons c cs ih =>
    rw [cutHunks]
    split_ifs
    · exact List.cons_ne_nil _ _
    · exact ih _

/-- A single hunk holds all changes. -/
theorem eq_of_cutHunks_eq_singleton {all : List Change} (h : cutHunks group cs = [all]) : all = group ++ cs := by
  induction cs generalizing group with
  | nil => simpa [cutHunks, eq_comm] using h
  | cons c cs ih =>
    rw [cutHunks] at h
    split_ifs at h
    · exact absurd (List.cons.inj h).2 (cutHunks_ne_nil _ _)
    · rw [ih h, List.append_assoc, List.singleton_append]

/-- A group that shows no change holds at most one range, which is the same. -/
theorem same_of_showsChange_eq_false (h : showsChange group = false) : group = [] ∨ ∃ c, group = [c] ∧ c.same = true := by
  cases group with
  | nil => exact .inl rfl
  | cons c cs =>
    cases cs with
    | nil => exact .inr ⟨c, rfl, by simpa [showsChange] using h⟩
    | cons d cs => cases h

/-- The only range of a text that is the same is cut short, so no hunk is cut in it. -/
theorem trimmed_singleton (h : c.same = true) : ∃ d, trimmed [c] = [d] ∧ d.same = true ∧ d.oldStop - d.oldStart ≤ context := by
  have hlast : c.lastLines.same = true := c.same_lastLines.trans h
  exact ⟨c.lastLines.firstLines, rfl, c.lastLines.same_firstLines.trans hlast, Change.length_firstLines hlast⟩

/-- There is no hunk exactly if there is no change, or a single range that is the same. -/
theorem hunks_eq_nil_iff_changes :
    hunks old new = [] ↔ changes old new = [] ∨ ∃ c, changes old new = [c] ∧ c.same = true := by
  constructor
  · intro h
    obtain ⟨hfront, hlast⟩ := List.append_eq_nil_iff.1 h
    obtain ⟨all, hall⟩ : ∃ all, cutHunks [] (trimmed (changes old new)) = [all] := by
      have hsplit := List.dropLast_append_getLast (cutHunks_ne_nil [] (trimmed (changes old new)))
      rw [hfront, List.nil_append] at hsplit
      exact ⟨_, hsplit.symm⟩
    have heq := eq_of_cutHunks_eq_singleton hall
    rw [List.nil_append] at heq
    rw [hall, heq] at hlast
    have hshows : showsChange (trimmed (changes old new)) = false := by simpa using hlast
    have hlen := length_trimmed (changes old new)
    rcases same_of_showsChange_eq_false hshows with hnil | ⟨d, hd, hsame⟩
    · rw [hnil] at hlen
      exact .inl (List.length_eq_zero_iff.1 hlen.symm)
    · rw [hd] at hlen
      obtain ⟨c, hc⟩ := List.length_eq_one_iff.1 hlen.symm
      rw [hc] at hd
      obtain rfl := List.singleton_inj.1 hd
      exact .inr ⟨c, hc, by rwa [Change.same_firstLines, Change.same_lastLines] at hsame⟩
  · rintro (h | ⟨c, h, hsame⟩)
    · rw [hunks, h]
      rfl
    · obtain ⟨d, htrimmed, hd, hshort⟩ := trimmed_singleton hsame
      have hcut : cutHunks [] [d] = [[d]] := by
        rw [cutHunks, if_neg]
        · rfl
        · rw [not_and, not_lt]
          intro _
          exact hshort.trans (by decide)
      rw [hunks, h, htrimmed, hcut]
      simp [showsChange, hd]

/-- There is no hunk exactly if the two versions are equal. -/
theorem hunks_eq_nil_iff : hunks old new = [] ↔ old = new := by
  rw [hunks_eq_nil_iff_changes]
  constructor
  · rintro (h | ⟨c, h, hsame⟩)
    · obtain ⟨-, hold, hnew⟩ := changesFrom_eq_nil h
      rw [List.length_eq_zero_iff.1 (Nat.le_zero.1 hold), List.length_eq_zero_iff.1 (Nat.le_zero.1 hnew)]
    · obtain ⟨b, hblocks, ho, hn, hold, hnew⟩ := changesFrom_eq_singleton h hsame
      obtain ⟨before, behind, before', behind', shared, rfl, rfl, hbefore, hbefore', hsize⟩ :=
        matches_of_mem_blocks (b := b) (hblocks ▸ List.mem_singleton_self b)
      simp only [List.length_append] at hold hnew
      have hnil : before = [] ∧ behind = [] ∧ before' = [] ∧ behind' = [] := by
        simp only [← List.length_eq_zero_iff]
        omega
      obtain ⟨rfl, rfl, rfl, rfl⟩ := hnil
      rfl
  · rintro rfl
    rcases eq_or_ne old [] with rfl | hne
    · exact .inl rfl
    · refine .inr ⟨⟨true, 0, old.length, 0, old.length⟩, ?_, rfl⟩
      rw [changes, blocks_self old hne]
      simp [changesFrom, gapBefore]

/-- A diff is empty exactly if the two versions are equal. -/
theorem unified_eq_nil_iff (name : Text) : unified name old new = [] ↔ old = new := by
  rw [← hunks_eq_nil_iff, unified]
  cases hunks old new with
  | nil => exact iff_of_true rfl rfl
  | cons group groups => exact iff_of_false (by simp [Text.ofString]) (List.cons_ne_nil _ _)

end CodeGroom.Diff
