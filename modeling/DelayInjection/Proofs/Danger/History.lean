import Mathlib.Data.List.Induction
import DelayInjection.Proofs.Danger
import DelayInjection.Proofs.LocationPair

-- What a danger tracker holds after any history of questions and changes. A pair is live when the
-- last change to it accepted it, and the counts of the locations are those of the live pairs, so
-- that leaving a pair never takes more from a location than it has.

namespace DelayInjection

namespace DangerTracker

inductive Request where
  | consider (pair : LocationPair) (threshold : Nat)
  | remove (pair : LocationPair)
  | weigh (location : String)

-- A request with its answer.
inductive Outcome where
  | considered (pair : LocationPair) (accepted : Bool)
  | removed (pair : LocationPair) (found : Bool)
  | weighed (location : String) (level? : Option Nat)

def serve (tracker : DangerTracker) : Request → Outcome × DangerTracker
  | .consider pair threshold =>
      let (accepted, tracker) := tracker.consider pair threshold
      (.considered pair accepted, tracker)
  | .remove pair =>
      let (found, tracker) := tracker.remove pair
      (.removed pair found, tracker)
  | .weigh location =>
      let (level?, tracker) := tracker.weigh location
      (.weighed location level?, tracker)

-- The outcomes so far and the tracker, after one request more.
def served (state : List Outcome × DangerTracker) (request : Request) :
    List Outcome × DangerTracker :=
  (state.1 ++ [(state.2.serve request).1], (state.2.serve request).2)

def serveAll (requests : List Request) : List Outcome × DangerTracker :=
  requests.foldl served ([], {})

-- The pair that an outcome changes, and whether it is live from then on.
def Outcome.change? : Outcome → Option (LocationPair × Bool)
  | considered pair true => some (pair, true)
  | removed pair true => some (pair, false)
  | _ => none

-- What the last change to a pair made of it, if there was one.
def lastChange? (outcomes : List Outcome) (pair : LocationPair) : Option Bool :=
  (outcomes.filterMap Outcome.change?).reverse.lookup pair

section

variable {outcomes : List Outcome} {outcome : Outcome} {pair other : LocationPair} {live : Bool}

theorem lastChange?_quiet (h : outcome.change? = none) :
    lastChange? (outcomes ++ [outcome]) pair = lastChange? outcomes pair := by
  rw [lastChange?, List.filterMap_append, List.filterMap_cons_none h, List.filterMap_nil,
    List.append_nil, lastChange?]

-- A change decides about its own pair and about no other.
theorem lastChange?_change (h : outcome.change? = some (other, live)) :
    lastChange? (outcomes ++ [outcome]) pair =
      if pair = other then some live else lastChange? outcomes pair := by
  rw [lastChange?, List.filterMap_append, List.filterMap_cons_some h, List.filterMap_nil,
    List.reverse_append, List.reverse_singleton, List.singleton_append, List.lookup_cons,
    lastChange?]
  by_cases he : pair = other
  · simp [he]
  · rw [if_neg he, beq_false_of_ne he]

end

section

variable {tracker : DangerTracker}

theorem isDangerous_eq (tracker : DangerTracker) (location : String) :
    tracker.isDangerous location = (tracker.weigh location).1.isSome := by
  unfold isDangerous weigh
  split <;> simp [*]

theorem keysOf_nodup (pair : LocationPair) : (keysOf pair).Nodup := by
  unfold keysOf
  split
  · exact List.nodup_singleton _
  · rename_i hne
    simpa using hne

theorem mem_keysOf_iff {pair : LocationPair} {location : String} :
    location ∈ keysOf pair ↔ pair.contains location = true := by
  rw [← List.count_pos_iff, count_keysOf]
  split <;> simp [*]

theorem contains_iff (tracker : DangerTracker) (pair : LocationPair) :
    tracker.contains pair = true ↔ pair ∈ tracker.pairs := by
  rw [contains, decide_eq_true_iff]

theorem mem_toList_iff (tracker : DangerTracker) (pair : LocationPair) :
    pair ∈ tracker.toList ↔ tracker.contains pair = true := by
  rw [toList, (LocationPair.sort_perm tracker.pairs).mem_iff, contains_iff]

-- The count that is kept for a location is the number of live pairs with it; none is kept for a
-- location without a live pair.
theorem Consistent.membership_eq (h : tracker.Consistent) (location : String) :
    tracker.membership.get? location =
      if tracker.toList.countP (·.contains location) = 0 then none
      else some (tracker.toList.countP (·.contains location)) := by
  have htrim := h.trimmed location
  rw [toList, (LocationPair.sort_perm tracker.pairs).countP_eq, ← h.counts]
  unfold counted
  cases hget : tracker.membership.get? location with
  | none => rfl
  | some count =>
      rw [hget] at htrim
      have hne : count ≠ 0 := fun he => htrim (by rw [he])
      simp [hne]

-- When a live pair leaves its locations, one after the other, each has a count to take from.
theorem Consistent.leaves (h : tracker.Consistent) {pair : LocationPair}
    (hlive : tracker.contains pair = true) {front back : List String} {location : String}
    (hkeys : keysOf pair = front ++ location :: back) :
    ∃ count, (front.foldl leaveLocation tracker.membership).get? location =
      some (count + 1) := by
  have hown : pair.contains location = true := mem_keysOf_iff.mp (by simp [hkeys])
  have hpos : 0 < tracker.pairs.countP (·.contains location) :=
    List.countP_pos_iff.mpr ⟨pair, (tracker.contains_iff pair).mp hlive, hown⟩
  have hfront : location ∉ front := by
    have hnodup := keysOf_nodup pair
    rw [hkeys] at hnodup
    exact fun hm => (List.nodup_middle.mp hnodup).notMem (List.mem_append_left _ hm)
  have hleft := (foldl_leaveLocation front tracker.membership).1 location
  rw [List.count_eq_zero_of_not_mem hfront, Nat.sub_zero, h.counts] at hleft
  unfold counted at hleft
  cases hget : (front.foldl leaveLocation tracker.membership).get? location with
  | none =>
      rw [hget, Option.getD_none] at hleft
      omega
  | some count =>
      rw [hget, Option.getD_some] at hleft
      exact ⟨count - 1, by rw [Nat.sub_add_cancel (by omega)]⟩

-- The live pairs in order, each of them once.
theorem Consistent.toList_sorted (h : tracker.Consistent) :
    tracker.toList.Pairwise fun a b => a.le b = true ∧ a ≠ b :=
  (LocationPair.sort_pairwise tracker.pairs).and
    ((LocationPair.sort_perm tracker.pairs).nodup_iff.mpr h.nodup)

theorem Consistent.serve (h : tracker.Consistent) (request : Request) :
    (tracker.serve request).2.Consistent := by
  cases request with
  | consider pair threshold => exact h.consider pair threshold
  | remove pair => exact h.remove pair
  | weigh location => exact h.weigh location

-- One request more keeps the live pairs those that the last change to them accepted.
theorem Consistent.live_served (h : tracker.Consistent) {outcomes : List Outcome}
    (hlive : ∀ pair, pair ∈ tracker.pairs ↔ lastChange? outcomes pair = some true)
    (request : Request) (pair : LocationPair) :
    pair ∈ (tracker.serve request).2.pairs ↔
      lastChange? (outcomes ++ [(tracker.serve request).1]) pair = some true := by
  cases request with
  | consider other threshold =>
      have hpairs : pair ∈ (tracker.consider other threshold).2.pairs ↔ _ :=
        tracker.mem_pairs_consider_iff other threshold
      simp only [DangerTracker.serve, hpairs, hlive pair]
      cases (tracker.consider other threshold).1 with
      | true =>
          rw [lastChange?_change rfl]
          by_cases he : pair = other <;> simp [he]
      | false =>
          rw [lastChange?_quiet rfl]
          simp
  | remove other =>
      have hpairs : pair ∈ (tracker.remove other).2.pairs ↔ _ :=
        tracker.mem_pairs_remove_iff other h.nodup
      simp only [DangerTracker.serve, hpairs, hlive pair]
      cases (tracker.remove other).1 with
      | true =>
          rw [lastChange?_change rfl]
          by_cases he : pair = other <;> simp [he]
      | false =>
          rw [lastChange?_quiet rfl]
          simp
  | weigh location =>
      simp only [DangerTracker.serve, pairs_weigh]
      rw [lastChange?_quiet rfl, hlive pair]

end

theorem serveAll_concat (requests : List Request) (request : Request) :
    serveAll (requests ++ [request]) = served (serveAll requests) request := by
  rw [serveAll, List.foldl_append, List.foldl_cons, List.foldl_nil, ← serveAll]

theorem serveAll_holds (requests : List Request) :
    (serveAll requests).2.Consistent ∧ ∀ pair, pair ∈ (serveAll requests).2.pairs ↔
      lastChange? (serveAll requests).1 pair = some true := by
  induction requests using List.reverseRecOn with
  | nil => exact ⟨consistent_empty, fun _ => ⟨nofun, nofun⟩⟩
  | append_singleton requests request ih =>
      obtain ⟨hconsistent, hlive⟩ := ih
      rw [serveAll_concat, served]
      exact ⟨hconsistent.serve request, hconsistent.live_served hlive request⟩

-- After any history the count kept for a location is the number of live pairs with it, and a pair
-- that is taken out finds a count for each of its locations. So a location is dangerous, and has
-- a level, exactly when a live pair contains it; a pair is live when the last change accepted it,
-- and the live pairs are listed in order, each of them once.
theorem membership_counts (requests : List Request) :
    let outcomes := (serveAll requests).1
    let tracker := (serveAll requests).2
    (∀ location, tracker.membership.get? location =
        if tracker.toList.countP (·.contains location) = 0 then none
        else some (tracker.toList.countP (·.contains location))) ∧
      (∀ pair, tracker.contains pair = true → ∀ front location back,
        keysOf pair = front ++ location :: back →
          ∃ count, (front.foldl leaveLocation tracker.membership).get? location =
            some (count + 1)) ∧
      (∀ location,
        (tracker.isDangerous location = true ↔
          ∃ pair, tracker.contains pair = true ∧ pair.contains location = true) ∧
        ((tracker.weigh location).1.isSome = true ↔
          ∃ pair, tracker.contains pair = true ∧ pair.contains location = true)) ∧
      (∀ pair, tracker.contains pair = true ↔ lastChange? outcomes pair = some true) ∧
      (tracker.toList.Pairwise fun a b => a.le b = true ∧ a ≠ b) ∧
      ∀ pair, pair ∈ tracker.toList ↔ tracker.contains pair = true := by
  intro outcomes tracker
  obtain ⟨hconsistent, hlive⟩ := serveAll_holds requests
  have hlevel : ∀ location, (tracker.weigh location).1.isSome = true ↔
      ∃ pair, tracker.contains pair = true ∧ pair.contains location = true := fun location => by
    simp only [contains_iff]
    exact hconsistent.weigh_isSome_iff location
  refine ⟨hconsistent.membership_eq, fun pair hm front location back => hconsistent.leaves hm,
    fun location => ⟨?_, hlevel location⟩,
    fun pair => (tracker.contains_iff pair).trans (hlive pair),
    hconsistent.toList_sorted, tracker.mem_toList_iff⟩
  rw [isDangerous_eq]
  exact hlevel location

-- A location that is paired with itself, paired with another one, and left by the first pair.
namespace Sample

def requests : List Request :=
  [.consider (.of "a" "a") 10, .consider (.of "a" "b") 10, .remove (.of "a" "a"), .weigh "a"]

end Sample

theorem membership_counts_of_self :
    let tracker := (serveAll Sample.requests).2
    tracker.contains (.of "a" "a") = false ∧ tracker.contains (.of "a" "b") = true ∧
      tracker.isDangerous "a" = true ∧
      ∃ count, (leaveLocation tracker.membership "b").get? "a" = some (count + 1) := by
  intro tracker
  obtain ⟨-, hleaves, hdangerous, hlast, -, -⟩ := membership_counts Sample.requests
  have hlive : tracker.contains (.of "a" "b") = true := (hlast _).mpr (by decide +kernel)
  refine ⟨?_, hlive, ?_, ?_⟩
  · rw [Bool.eq_false_iff, ne_eq, hlast]
    decide +kernel
  · exact (hdangerous "a").1.mpr ⟨_, hlive, by decide +kernel⟩
  · exact hleaves _ hlive ["b"] "a" [] (by decide +kernel)

end DangerTracker

end DelayInjection
