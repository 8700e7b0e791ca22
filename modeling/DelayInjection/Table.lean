-- Finite tables: association lists without repeated keys, in order of first insertion. Every
-- registry of the library (identities, counters, caches, buckets) is one of these, so that
-- their states can be compared, listed and reasoned about through `get?` alone.

namespace DelayInjection

namespace Entries

variable {κ α : Type} [DecidableEq κ]

def find (key : κ) : List (κ × α) → Option α
  | [] => none
  | entry :: rest => if entry.1 = key then some entry.2 else find key rest

-- Replaces the value of a present key where it stands; a new key goes to the end.
def put (key : κ) (value : α) : List (κ × α) → List (κ × α)
  | [] => [(key, value)]
  | entry :: rest =>
      if entry.1 = key then (key, value) :: rest else entry :: put key value rest

theorem keys_put (key : κ) (value : α) (entries : List (κ × α)) :
    (put key value entries).map Prod.fst =
      if key ∈ entries.map Prod.fst then entries.map Prod.fst
      else entries.map Prod.fst ++ [key] := by
  induction entries with
  | nil => simp [put]
  | cons entry rest ih =>
      by_cases h : entry.1 = key
      · simp [put, h]
      · simp only [put, if_neg h, List.map_cons, ih, List.mem_cons, Ne.symm h, false_or]
        split <;> simp

theorem nodup_put {key : κ} {value : α} {entries : List (κ × α)}
    (h : (entries.map Prod.fst).Nodup) : ((put key value entries).map Prod.fst).Nodup := by
  rw [keys_put]
  split
  · exact h
  · rename_i hnew
    exact List.nodup_append.mpr ⟨h, by simp, by
      intro a ha b hb hab
      simp only [List.mem_singleton] at hb
      exact hnew (hb ▸ hab ▸ ha)⟩

theorem find_put (key other : κ) (value : α) (entries : List (κ × α)) :
    find other (put key value entries) =
      if key = other then some value else find other entries := by
  induction entries with
  | nil => simp [put, find]
  | cons entry rest ih =>
      by_cases h : entry.1 = key
      · by_cases ho : key = other
        · simp [put, find, h, ho]
        · simp [put, find, h, ho]
      · by_cases he : entry.1 = other
        · subst he
          simp [put, find, h, Ne.symm h]
        · simp [put, find, h, he, ih]

theorem find_isSome (key : κ) (entries : List (κ × α)) :
    (find key entries).isSome ↔ key ∈ entries.map Prod.fst := by
  induction entries with
  | nil => simp [find]
  | cons entry rest ih =>
      by_cases h : entry.1 = key
      · simp [find, h]
      · simp only [find, if_neg h, ih, List.map_cons, List.mem_cons, Ne.symm h, false_or]

theorem find_filter_ne (key other : κ) (entries : List (κ × α)) :
    find other (entries.filter fun entry => entry.1 ≠ key) =
      if key = other then none else find other entries := by
  induction entries with
  | nil => simp [find]
  | cons entry rest ih =>
      by_cases h : entry.1 = key
      · by_cases ho : key = other
        · rw [List.filter_cons_of_neg (by simp [h]), ih]
          simp [ho]
        · rw [List.filter_cons_of_neg (by simp [h]), ih]
          simp [find, h, ho]
      · rw [List.filter_cons_of_pos (by simp [h])]
        by_cases he : entry.1 = other
        · subst he
          simp [find, Ne.symm h]
        · rw [find, if_neg he, ih, find, if_neg he]

end Entries

structure Table (κ α : Type) where
  entries : List (κ × α) := []
  nodup : (entries.map Prod.fst).Nodup := by simp

namespace Table

variable {κ α : Type}

def empty : Table κ α := { entries := [] }

instance : Inhabited (Table κ α) := ⟨empty⟩

def size (table : Table κ α) : Nat := table.entries.length

def keys (table : Table κ α) : List κ := table.entries.map Prod.fst

def values (table : Table κ α) : List α := table.entries.map Prod.snd

def filterKeys (keep : κ → Bool) (table : Table κ α) : Table κ α where
  entries := table.entries.filter fun entry => keep entry.1
  nodup := (List.Sublist.map Prod.fst List.filter_sublist).nodup table.nodup

def mapEntries (change : κ → α → α) (table : Table κ α) : Table κ α where
  entries := table.entries.map fun entry => (entry.1, change entry.1 entry.2)
  nodup := by simpa [List.map_map, Function.comp_def] using table.nodup

variable [DecidableEq κ]

def get? (table : Table κ α) (key : κ) : Option α := Entries.find key table.entries

def contains (table : Table κ α) (key : κ) : Bool := (table.get? key).isSome

def insert (table : Table κ α) (key : κ) (value : α) : Table κ α where
  entries := Entries.put key value table.entries
  nodup := Entries.nodup_put table.nodup

def erase (table : Table κ α) (key : κ) : Table κ α where
  entries := table.entries.filter fun entry => entry.1 ≠ key
  nodup := (List.Sublist.map Prod.fst List.filter_sublist).nodup table.nodup

@[simp] theorem get?_empty (key : κ) : (empty : Table κ α).get? key = none := rfl

theorem get?_insert (table : Table κ α) (key other : κ) (value : α) :
    (table.insert key value).get? other = if key = other then some value else table.get? other :=
  Entries.find_put key other value table.entries

@[simp] theorem get?_insert_self (table : Table κ α) (key : κ) (value : α) :
    (table.insert key value).get? key = some value := by simp [get?_insert]

theorem get?_insert_of_ne (table : Table κ α) {key other : κ} (value : α) (h : key ≠ other) :
    (table.insert key value).get? other = table.get? other := by simp [get?_insert, h]

theorem get?_erase (table : Table κ α) (key other : κ) :
    (table.erase key).get? other = if key = other then none else table.get? other :=
  Entries.find_filter_ne key other table.entries

theorem get?_isSome_iff (table : Table κ α) (key : κ) :
    (table.get? key).isSome ↔ key ∈ table.keys :=
  Entries.find_isSome key table.entries

theorem keys_insert (table : Table κ α) (key : κ) (value : α) :
    (table.insert key value).keys =
      if key ∈ table.keys then table.keys else table.keys ++ [key] :=
  Entries.keys_put key value table.entries

omit [DecidableEq κ] in
theorem keys_nodup (table : Table κ α) : table.keys.Nodup := table.nodup

end Table

end DelayInjection
