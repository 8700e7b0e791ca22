import Mathlib.Algebra.Group.Nat.Defs
import DelayInjection.Proofs.Danger.History

-- How dangerous a location is after any history. Its level is the number of its weighings since a
-- pair with it was last accepted. The counts do not depend on which pairs are live, so that a pair
-- that leaves and comes back brings no older count with it.

namespace DelayInjection

namespace DangerTracker

-- An accepted pair starts the counts of its locations anew.
def Outcome.resets (location : String) : Outcome → Bool
  | considered pair accepted => accepted && pair.contains location
  | _ => false

-- A weighing counts when the location had a level.
def Outcome.weighs (location : String) : Outcome → Bool
  | weighed other level? => other == location && level?.isSome
  | _ => false

-- How often a location was weighed since a pair with it was last accepted.
def weighingsOf (outcomes : List Outcome) (location : String) : Nat :=
  (outcomes.reverse.takeWhile (!·.resets location)).countP (·.weighs location)

def Request.isWeighing : Request → Bool
  | weigh _ => true
  | _ => false

theorem weighingsOf_concat (outcomes : List Outcome) (outcome : Outcome) (location : String) :
    weighingsOf (outcomes ++ [outcome]) location =
      if outcome.resets location then 0
      else weighingsOf outcomes location + if outcome.weighs location then 1 else 0 := by
  rw [weighingsOf, List.reverse_append, List.reverse_singleton, List.singleton_append,
    List.takeWhile_cons]
  cases outcome.resets location with
  | true => rfl
  | false => exact List.countP_cons

section

variable (tracker : DangerTracker) (pair : LocationPair) (location : String)

-- A candidate is turned down only when it is live and was weighed often enough, and then nothing
-- changes.
theorem consider_eq_false_iff (threshold : Nat) :
    (tracker.consider pair threshold).1 = false ↔ tracker.contains pair = true ∧
      threshold ≤ tracker.hitsAt pair.first + tracker.hitsAt pair.second := by
  rw [contains_iff]
  unfold consider
  dsimp only
  split
  · simp [*]
  · split <;> simp_all

theorem consider_of_eq_false {threshold : Nat}
    (h : (tracker.consider pair threshold).1 = false) :
    (tracker.consider pair threshold).2 = tracker := by
  unfold consider at h ⊢
  dsimp only at h ⊢
  split
  · rfl
  · rename_i hnot
    rw [if_neg hnot] at h
    split at h <;> cases h

theorem hitsAt_consider (threshold : Nat) :
    (tracker.consider pair threshold).2.hitsAt location =
      if (tracker.consider pair threshold).1 && pair.contains location then 0
      else tracker.hitsAt location := by
  have hreset : ((((tracker.hits.insert pair.first 0).insert pair.second 0).get? location).getD 0) =
      if pair.contains location then 0 else tracker.hitsAt location := by
    rw [Table.get?_insert, Table.get?_insert]
    by_cases hs : pair.second = location <;> by_cases hf : pair.first = location <;>
      simp [LocationPair.contains, hitsAt, hs, hf]
  unfold consider
  dsimp only
  split
  · rfl
  · split <;> exact hreset

theorem hitsAt_remove : (tracker.remove pair).2.hitsAt location = tracker.hitsAt location := by
  unfold remove
  split <;> rfl

theorem hitsAt_weigh (other : String) :
    (tracker.weigh other).2.hitsAt location =
      tracker.hitsAt location +
        if other == location && (tracker.weigh other).1.isSome then 1 else 0 := by
  unfold weigh
  split
  · by_cases he : other = location
    · subst he
      simp [hitsAt]
    · simp [hitsAt, Table.get?_insert_of_ne, he]
  · simp

theorem weigh_of_isSome (h : (tracker.weigh location).1.isSome = true) :
    (tracker.weigh location).1 = some (tracker.hitsAt location) := by
  unfold weigh at h ⊢
  split
  · rfl
  · rename_i hnone
    rw [if_neg hnone] at h
    cases h

-- Every request changes the kept count of a location as its outcome changes the weighings.
theorem hitsAt_serve (request : Request) :
    (tracker.serve request).2.hitsAt location =
      if (tracker.serve request).1.resets location then 0
      else tracker.hitsAt location +
        if (tracker.serve request).1.weighs location then 1 else 0 := by
  cases request with
  | consider pair threshold => exact tracker.hitsAt_consider pair location threshold
  | remove pair => exact tracker.hitsAt_remove pair location
  | weigh other => exact tracker.hitsAt_weigh location other

theorem weighs_serve (request : Request) (h : (tracker.serve request).1.weighs location = true) :
    request.isWeighing = true := by
  cases request with
  | consider pair threshold => cases h
  | remove pair => cases h
  | weigh other => rfl

end

theorem hitsAt_serveAll (requests : List Request) (location : String) :
    (serveAll requests).2.hitsAt location = weighingsOf (serveAll requests).1 location := by
  induction requests using List.reverseRecOn with
  | nil => rfl
  | append_singleton requests request ih =>
      rw [serveAll_concat, served, hitsAt_serve, weighingsOf_concat, ih]

theorem weighingsOf_le (requests : List Request) (location : String) :
    weighingsOf (serveAll requests).1 location ≤ requests.countP (·.isWeighing) := by
  induction requests using List.reverseRecOn with
  | nil => exact Nat.le_refl 0
  | append_singleton requests request ih =>
      rw [serveAll_concat, served, weighingsOf_concat, List.countP_append, List.countP_singleton]
      have hweighs := (serveAll requests).2.weighs_serve location request
      split
      · omega
      · split
        · rename_i hcounted
          rw [if_pos (hweighs hcounted)]
          omega
        · omega

-- Removals tell nothing about levels.
theorem weighingsOf_removals (requests : List Request) (pairs : List LocationPair)
    (location : String) :
    weighingsOf (serveAll (requests ++ pairs.map .remove)).1 location =
      weighingsOf (serveAll requests).1 location := by
  induction pairs using List.reverseRecOn with
  | nil => rw [List.map_nil, List.append_nil]
  | append_singleton pairs pair ih =>
      rw [List.map_append, List.map_singleton, ← List.append_assoc, serveAll_concat, served,
        weighingsOf_concat, ih]
      rfl

-- After any history the count kept for a location, live or not, is the number of its weighings
-- since a pair with it was last accepted, and a location of a live pair has this number as its
-- level. A candidate is turned down exactly when it is live and its two locations were weighed
-- often enough together, and changes nothing then. Removals leave all counts, and with fewer than
-- `2 ^ 63` weighings the sum of two counts fits into a word.
theorem levels_count_weighings (requests : List Request) :
    let outcomes := (serveAll requests).1
    let tracker := (serveAll requests).2
    (∀ location, tracker.hitsAt location = weighingsOf outcomes location) ∧
      (∀ location, (∃ pair, tracker.contains pair = true ∧ pair.contains location = true) →
        (tracker.weigh location).1 = some (weighingsOf outcomes location)) ∧
      (∀ location, (¬ ∃ pair, tracker.contains pair = true ∧ pair.contains location = true) →
        (tracker.weigh location).1 = none) ∧
      (∀ pair threshold,
        ((tracker.consider pair threshold).1 = false ↔ tracker.contains pair = true ∧
          threshold ≤ weighingsOf outcomes pair.first + weighingsOf outcomes pair.second) ∧
        ((tracker.consider pair threshold).1 = false →
          (tracker.consider pair threshold).2 = tracker)) ∧
      (∀ (pairs : List LocationPair) location,
        let left := serveAll (requests ++ pairs.map .remove)
        weighingsOf left.1 location = weighingsOf outcomes location ∧
          left.2.hitsAt location = weighingsOf outcomes location) ∧
      (requests.countP (·.isWeighing) < 2 ^ 63 → ∀ first second,
        weighingsOf outcomes first + weighingsOf outcomes second < 2 ^ 64) := by
  intro outcomes tracker
  have hhits := hitsAt_serveAll requests
  have hlive : ∀ location, (tracker.weigh location).1.isSome = true ↔
      ∃ pair, tracker.contains pair = true ∧ pair.contains location = true := fun location => by
    simp only [contains_iff]
    exact (serveAll_holds requests).1.weigh_isSome_iff location
  refine ⟨hhits, fun location h => ?_, fun location h => ?_, fun pair threshold => ⟨?_, ?_⟩,
    fun pairs location => ⟨?_, ?_⟩, fun hfew first second => ?_⟩
  · rw [weigh_of_isSome _ _ ((hlive location).mpr h), hhits]
  · exact Option.not_isSome_iff_eq_none.mp (mt (hlive location).mp h)
  · rw [consider_eq_false_iff, hhits, hhits]
  · exact tracker.consider_of_eq_false pair
  · exact weighingsOf_removals requests pairs location
  · rw [hitsAt_serveAll]
    exact weighingsOf_removals requests pairs location
  · have hfirst : weighingsOf outcomes first ≤ _ := weighingsOf_le requests first
    have hsecond : weighingsOf outcomes second ≤ _ := weighingsOf_le requests second
    omega

-- Two pairs that share a location, of which the first leaves.
namespace Sample

def shared : List Request :=
  [.consider (.of "a" "b") 10, .consider (.of "b" "c") 10, .weigh "b", .weigh "b",
    .remove (.of "a" "b")]

end Sample

theorem levels_count_weighings_of_shared :
    let tracker := (serveAll Sample.shared).2
    (tracker.weigh "b").1 = some 2 ∧ (tracker.weigh "a").1 = none ∧
      (tracker.consider (.of "b" "c") 2).2 = tracker ∧
      (serveAll (Sample.shared ++ [.remove (.of "b" "c")])).2.hitsAt "b" = 2 ∧
      weighingsOf (serveAll Sample.shared).1 "b" + weighingsOf (serveAll Sample.shared).1 "c" <
        2 ^ 64 := by
  intro tracker
  obtain ⟨-, hlevel, hnone, hconsider, hremove, hword⟩ := levels_count_weighings Sample.shared
  have hcount : weighingsOf (serveAll Sample.shared).1 "b" = 2 := by decide +kernel
  refine ⟨?_, ?_, ?_, ?_, hword (by decide +kernel) "b" "c"⟩
  · rw [hlevel "b" ⟨.of "b" "c", by decide +kernel, by decide +kernel⟩, hcount]
  · refine hnone "a" ?_
    rintro ⟨pair, hlive, hown⟩
    have honly : ∀ pair ∈ tracker.pairs, ¬ pair.contains "a" = true := by decide +kernel
    exact honly pair ((contains_iff _ _).mp hlive) hown
  · exact (hconsider (.of "b" "c") 2).2 ((hconsider (.of "b" "c") 2).1.mpr
      ⟨by decide +kernel, by decide +kernel⟩)
  · exact (hremove [.of "b" "c"] "b").2.trans hcount

end DangerTracker

end DelayInjection
