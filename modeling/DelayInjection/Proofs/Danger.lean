import Mathlib.Data.List.Basic
import Mathlib.Data.List.Nodup
import DelayInjection.Danger

-- The two books of a danger tracker agree: the count kept for a location is the number of the live
-- pairs that contain it.

namespace DelayInjection

namespace DangerTracker

section

variable {pair : LocationPair} {location key : String} {membership : Table String Nat}

theorem count_keysOf : (keysOf pair).count location = if pair.contains location then 1 else 0 := by
  unfold keysOf LocationPair.contains
  by_cases hf : pair.first = location <;> by_cases hs : pair.second = location <;>
    by_cases he : pair.first = pair.second <;> simp_all

-- How many live pairs contain a location, as the tracker counts them.
def counted (membership : Table String Nat) (location : String) : Nat :=
  (membership.get? location).getD 0

-- No count of zero is kept.
def Trimmed (membership : Table String Nat) : Prop := ∀ location, membership.get? location ≠ some 0

theorem counted_joinLocation : counted (joinLocation membership key) location =
    counted membership location + if key = location then 1 else 0 := by
  unfold counted joinLocation
  rw [Table.get?_insert]
  split
  · rename_i he
    rw [he]
    rfl
  · rfl

theorem Trimmed.joinLocation (h : Trimmed membership) (key : String) :
    Trimmed (joinLocation membership key) := by
  intro location
  unfold DangerTracker.joinLocation
  rw [Table.get?_insert]
  split
  · simp
  · exact h location

theorem counted_leaveLocation : counted (leaveLocation membership key) location =
    counted membership location - if key = location then 1 else 0 := by
  unfold counted leaveLocation
  by_cases he : key = location
  · subst he
    cases hget : membership.get? key with
    | none => simp [hget]
    | some count =>
        dsimp only
        split
        · rename_i hzero
          rw [Table.get?_erase, if_pos rfl]
          simp [hzero]
        · rw [Table.get?_insert, if_pos rfl]
          simp
  · cases hget : membership.get? key with
    | none => simp [he]
    | some count =>
        dsimp only
        split
        · rw [Table.get?_erase, if_neg he, Nat.sub_zero]
        · rw [Table.get?_insert, if_neg he, Nat.sub_zero]

theorem Trimmed.leaveLocation (h : Trimmed membership) (key : String) :
    Trimmed (leaveLocation membership key) := by
  intro location
  unfold DangerTracker.leaveLocation
  split
  · exact h location
  · split
    · rw [Table.get?_erase]
      split
      · simp
      · exact h location
    · rename_i hpos
      rw [Table.get?_insert]
      split
      · simpa using hpos
      · exact h location

theorem foldl_joinLocation (keys : List String) (membership : Table String Nat) :
    (∀ location, counted (keys.foldl joinLocation membership) location =
      counted membership location + keys.count location) ∧
      (Trimmed membership → Trimmed (keys.foldl joinLocation membership)) := by
  induction keys generalizing membership with
  | nil => exact ⟨fun _ => rfl, id⟩
  | cons key rest ih =>
      obtain ⟨hcount, htrim⟩ := ih (joinLocation membership key)
      refine ⟨fun location => ?_, fun h => htrim (h.joinLocation key)⟩
      rw [List.foldl_cons, hcount, counted_joinLocation, List.count_cons]
      simp only [beq_iff_eq]
      omega

theorem foldl_leaveLocation (keys : List String) (membership : Table String Nat) :
    (∀ location, counted (keys.foldl leaveLocation membership) location =
      counted membership location - keys.count location) ∧
      (Trimmed membership → Trimmed (keys.foldl leaveLocation membership)) := by
  induction keys generalizing membership with
  | nil => exact ⟨fun _ => rfl, id⟩
  | cons key rest ih =>
      obtain ⟨hcount, htrim⟩ := ih (leaveLocation membership key)
      refine ⟨fun location => ?_, fun h => htrim (h.leaveLocation key)⟩
      rw [List.foldl_cons, hcount, counted_leaveLocation, List.count_cons]
      simp only [beq_iff_eq]
      omega

end

-- The pairs that are live after an operation.
section

variable (tracker : DangerTracker) (pair : LocationPair) {other : LocationPair}

-- A pair becomes live only when it is accepted.
theorem mem_pairs_consider_iff (threshold : Nat) :
    other ∈ (tracker.consider pair threshold).2.pairs ↔
      other ∈ tracker.pairs ∨ (tracker.consider pair threshold).1 = true ∧ other = pair := by
  unfold consider
  by_cases hknown : pair ∈ tracker.pairs
  · dsimp only
    have hpairs : other = pair → other ∈ tracker.pairs := fun he => he ▸ hknown
    split
    · simp
    · simpa using hpairs
  · simp [hknown, or_comm]

theorem mem_pairs_remove_iff (h : tracker.pairs.Nodup) :
    other ∈ (tracker.remove pair).2.pairs ↔
      other ∈ tracker.pairs ∧ ¬ ((tracker.remove pair).1 = true ∧ other = pair) := by
  unfold remove
  split
  · simp [h.mem_erase_iff, and_comm]
  · simp

theorem pairs_remove_subset : (tracker.remove pair).2.pairs ⊆ tracker.pairs := by
  unfold remove
  split
  · exact List.erase_subset
  · exact List.Subset.refl _

theorem pairs_weigh (location : String) : (tracker.weigh location).2.pairs = tracker.pairs := by
  unfold weigh
  split <;> rfl

end

structure Consistent (tracker : DangerTracker) : Prop where
  nodup : tracker.pairs.Nodup
  counts : ∀ location,
    counted tracker.membership location = tracker.pairs.countP (·.contains location)
  trimmed : Trimmed tracker.membership

theorem consistent_empty : Consistent {} where
  nodup := List.nodup_nil
  counts _ := rfl
  trimmed _ := nofun

section

variable {tracker : DangerTracker} (h : tracker.Consistent)

include h

theorem Consistent.consider (pair : LocationPair) (threshold : Nat) :
    (tracker.consider pair threshold).2.Consistent := by
  unfold DangerTracker.consider
  dsimp only
  split
  · exact h
  · split
    · exact ⟨h.nodup, h.counts, h.trimmed⟩
    · rename_i hnew
      obtain ⟨hcount, htrim⟩ := foldl_joinLocation (keysOf pair) tracker.membership
      refine ⟨List.nodup_cons.mpr ⟨hnew, h.nodup⟩, fun location => ?_, htrim h.trimmed⟩
      rw [hcount, h.counts, count_keysOf, List.countP_cons]

theorem Consistent.remove (pair : LocationPair) : (tracker.remove pair).2.Consistent := by
  unfold DangerTracker.remove
  split
  · rename_i hlive
    obtain ⟨hcount, htrim⟩ := foldl_leaveLocation (keysOf pair) tracker.membership
    refine ⟨h.nodup.erase pair, fun location => ?_, htrim h.trimmed⟩
    rw [hcount, h.counts, count_keysOf, (List.perm_cons_erase hlive).countP_eq,
      List.countP_cons, Nat.add_sub_cancel]
  · exact h

theorem Consistent.weigh (location : String) : (tracker.weigh location).2.Consistent := by
  unfold DangerTracker.weigh
  split
  · exact ⟨h.nodup, h.counts, h.trimmed⟩
  · exact h

-- A location has a level exactly when some live pair contains it.
theorem Consistent.weigh_isSome_iff (location : String) :
    (tracker.weigh location).1.isSome = true ↔
      ∃ pair ∈ tracker.pairs, pair.contains location = true := by
  have hpos : 0 < tracker.pairs.countP (·.contains location) ↔
      ∃ pair ∈ tracker.pairs, pair.contains location = true := List.countP_pos_iff
  have hcount := h.counts location
  have htrim := h.trimmed location
  rw [← hpos, ← hcount]
  unfold DangerTracker.weigh counted Table.contains
  cases hget : tracker.membership.get? location with
  | none => simp
  | some count =>
      rw [hget] at htrim
      have hne : count ≠ 0 := fun he => htrim (by rw [he])
      simpa using Nat.pos_of_ne_zero hne

end

end DangerTracker

end DelayInjection
