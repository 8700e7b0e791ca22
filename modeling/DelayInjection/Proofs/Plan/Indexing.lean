import Mathlib.Data.List.Basic
import DelayInjection.Plan.Store
import DelayInjection.Proofs.Table

-- The patterns of a store and the index of their keys. The index leads from every key to the place
-- of the pattern that has it and to no other place, so that the two together are one table.

namespace DelayInjection

def PatternPlan.key (pattern : PatternPlan) : String := pattern.handle.plan.identityKey

namespace PlanStore

def patternKeys (store : PlanStore) : List String := store.patterns.map (·.key)

-- The stored pattern that the index gives for a key.
def pattern? (store : PlanStore) (key : String) : Option PatternPlan :=
  (store.patternIndex.get? key).bind (store.patterns[·]?)

-- A key is indexed with a place if and only if the pattern that has the key stands there.
def Indexed (store : PlanStore) : Prop :=
  ∀ key index, store.patternIndex.get? key = some index ↔ store.patternKeys[index]? = some key

-- Puts a pattern where the one with its key stands, or behind all others.
def putPattern (store : PlanStore) (pattern : PatternPlan) : PlanStore :=
  match store.patternIndex.get? pattern.key with
  | some index => { store with patterns := store.patterns.set index pattern }
  | none =>
      { store with
        patternIndex := store.patternIndex.insert pattern.key store.patterns.length
        patterns := store.patterns ++ [pattern] }

section

variable {store : PlanStore} {pattern other : PatternPlan} {key : String} {index : Nat}

theorem indexed_empty : Indexed {} := by
  intro key index
  constructor
  · intro h
    cases h
  · intro h
    cases h

-- What stands at an indexed place.
theorem Indexed.getElem?_of_get? (h : Indexed store)
    (hindex : store.patternIndex.get? key = some index) :
    ∃ pattern, store.patterns[index]? = some pattern ∧ pattern.key = key := by
  have hkey := (h key index).mp hindex
  rwa [patternKeys, List.getElem?_map, Option.map_eq_some_iff] at hkey

theorem Indexed.get?_of_getElem? (h : Indexed store)
    (hat : store.patterns[index]? = some pattern) :
    store.patternIndex.get? pattern.key = some index := by
  rw [h, patternKeys, List.getElem?_map, hat, Option.map_some]

theorem mem_patterns_of_pattern? (h : store.pattern? key = some pattern) :
    pattern ∈ store.patterns := by
  obtain ⟨index, -, hat⟩ := Option.bind_eq_some_iff.mp h
  exact List.mem_of_getElem? hat

theorem Indexed.pattern?_iff (h : Indexed store) :
    store.pattern? key = some pattern ↔ pattern ∈ store.patterns ∧ pattern.key = key := by
  rw [pattern?, Option.bind_eq_some_iff, List.mem_iff_getElem?]
  constructor
  · rintro ⟨index, hindex, hat⟩
    obtain ⟨found, hfound, hkey⟩ := h.getElem?_of_get? hindex
    obtain rfl := Option.some.inj (hat.symm.trans hfound)
    exact ⟨⟨index, hat⟩, hkey⟩
  · rintro ⟨⟨index, hat⟩, rfl⟩
    exact ⟨index, h.get?_of_getElem? hat, hat⟩

theorem Indexed.pattern?_of_mem (h : Indexed store) (hm : pattern ∈ store.patterns) :
    store.pattern? pattern.key = some pattern := h.pattern?_iff.mpr ⟨hm, rfl⟩

theorem Indexed.pattern?_of_get? (h : Indexed store)
    (hindex : store.patternIndex.get? key = some index) :
    ∃ pattern, store.patterns[index]? = some pattern ∧ pattern.key = key ∧
      store.pattern? key = some pattern := by
  obtain ⟨pattern, hat, hkey⟩ := h.getElem?_of_get? hindex
  exact ⟨pattern, hat, hkey, by rw [pattern?, hindex, Option.bind_some, hat]⟩

theorem pattern?_of_get?_eq_none (hindex : store.patternIndex.get? key = none) :
    store.pattern? key = none := by rw [pattern?, hindex, Option.bind_none]

theorem Indexed.mem_patternKeys_iff (h : Indexed store) :
    key ∈ store.patternKeys ↔ (store.patternIndex.get? key).isSome = true := by
  simp only [List.mem_iff_getElem?, ← h key, Option.isSome_iff_exists]

-- The keys of the patterns stay, or a new one comes behind them.
theorem Indexed.patternKeys_put (h : Indexed store) (pattern : PatternPlan) :
    (store.putPattern pattern).patternKeys =
      if pattern.key ∈ store.patternKeys then store.patternKeys
      else store.patternKeys ++ [pattern.key] := by
  simp only [h.mem_patternKeys_iff]
  unfold putPattern
  cases hindex : store.patternIndex.get? pattern.key with
  | some index =>
      have hkey := (h _ _).mp hindex
      obtain ⟨hlt, hget⟩ := List.getElem?_eq_some_iff.mp hkey
      rw [Option.isSome_some, if_pos rfl, patternKeys, patternKeys, List.map_set]
      conv_lhs => rw [← hget]
      exact List.set_getElem_self hlt
  | none => simp [patternKeys]

theorem putPattern_of_some (hindex : store.patternIndex.get? pattern.key = some index) :
    store.putPattern pattern = { store with patterns := store.patterns.set index pattern } := by
  simp only [putPattern, hindex]

theorem putPattern_of_none (hindex : store.patternIndex.get? pattern.key = none) :
    store.putPattern pattern =
      { store with
        patternIndex := store.patternIndex.insert pattern.key store.patterns.length
        patterns := store.patterns ++ [pattern] } := by
  simp only [putPattern, hindex]

theorem mem_patterns_put (h : other ∈ (store.putPattern pattern).patterns) :
    other = pattern ∨ other ∈ store.patterns := by
  unfold putPattern at h
  split at h
  · exact (List.mem_or_eq_of_mem_set h).symm
  · exact (List.mem_append.mp h).symm.imp List.mem_singleton.mp id

-- Putting a pattern changes nothing but the patterns and their index.
theorem putPattern_eq (store : PlanStore) (pattern : PatternPlan) :
    store.putPattern pattern =
      { store with
        patterns := (store.putPattern pattern).patterns
        patternIndex := (store.putPattern pattern).patternIndex } := by
  unfold putPattern
  split <;> rfl

-- The place behind a list is the one where a further item stands.
theorem getElem?_concat_iff {α : Type} {items : List α} {item other : α} {index : Nat} :
    (items ++ [item])[index]? = some other ↔
      items[index]? = some other ∨ index = items.length ∧ item = other := by
  rcases Nat.lt_trichotomy index items.length with hlt | rfl | hgt
  · rw [List.getElem?_append_left hlt]
    exact ⟨.inl, fun h => h.resolve_right fun hend => Nat.ne_of_lt hlt hend.1⟩
  · simp
  · rw [List.getElem?_eq_none (by simp; omega), List.getElem?_eq_none (by omega)]
    simp [Nat.ne_of_gt hgt]

theorem Indexed.put (h : Indexed store) (pattern : PatternPlan) :
    Indexed (store.putPattern pattern) := by
  intro key index
  rw [h.patternKeys_put]
  simp only [h.mem_patternKeys_iff]
  unfold putPattern
  cases hplace : store.patternIndex.get? pattern.key with
  | some place => exact h key index
  | none =>
      have hlength : store.patterns.length = store.patternKeys.length := by simp [patternKeys]
      rw [if_neg (by simp), getElem?_concat_iff, ← h key index]
      dsimp only
      rw [Table.get?_insert, hlength]
      by_cases hkey : pattern.key = key
      · subst hkey
        simp [hplace, eq_comm]
      · simp [hkey]

-- The keyed view after a pattern was put: it is found under its key, and nothing else changes.
theorem Indexed.pattern?_put (h : Indexed store) (pattern : PatternPlan) (key : String) :
    (store.putPattern pattern).pattern? key =
      if pattern.key = key then some pattern else store.pattern? key := by
  unfold putPattern pattern?
  cases hplace : store.patternIndex.get? pattern.key with
  | some place =>
      obtain ⟨old, hold, hsame⟩ := h.getElem?_of_get? hplace
      obtain ⟨hlt, -⟩ := List.getElem?_eq_some_iff.mp hold
      dsimp only
      by_cases hkey : pattern.key = key
      · subst hkey
        rw [if_pos rfl, hplace, Option.bind_some, List.getElem?_set_self hlt]
      · rw [if_neg hkey]
        cases hindex : store.patternIndex.get? key with
        | none => rfl
        | some index =>
            obtain ⟨found, hfound, rfl⟩ := h.getElem?_of_get? hindex
            have hother : place ≠ index := by
              rintro rfl
              obtain rfl := Option.some.inj (hold.symm.trans hfound)
              exact hkey hsame.symm
            rw [Option.bind_some, Option.bind_some, List.getElem?_set_ne hother]
  | none =>
      dsimp only
      rw [Table.get?_insert]
      by_cases hkey : pattern.key = key
      · rw [if_pos hkey, if_pos hkey, Option.bind_some, List.getElem?_concat_length]
      · rw [if_neg hkey, if_neg hkey]
        cases hindex : store.patternIndex.get? key with
        | none => rfl
        | some index =>
            obtain ⟨found, hfound, -⟩ := h.getElem?_of_get? hindex
            have hlt := (List.getElem?_eq_some_iff.mp hfound).1
            rw [Option.bind_some, Option.bind_some, List.getElem?_append_left hlt]

end

end PlanStore

end DelayInjection
