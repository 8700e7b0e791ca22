import Mathlib.Data.List.Basic
import Mathlib.Data.List.Nodup
import Mathlib.Data.List.Perm.Basic
import DelayInjection.Table

-- What a change of one key does to the values of a table as a whole. The order of the values
-- never matters here, so that the laws are permutations.

namespace DelayInjection

namespace Entries

variable {κ α : Type} [DecidableEq κ]

theorem values_put_perm (key : κ) (value : α) (entries : List (κ × α)) :
    ((put key value entries).map Prod.snd ++ (find key entries).toList).Perm
      (value :: entries.map Prod.snd) := by
  induction entries with
  | nil => simp [put, find]
  | cons entry rest ih =>
      by_cases h : entry.1 = key
      · simp [put, find, h]
      · simp only [put, find, if_neg h, List.map_cons, List.cons_append]
        exact (ih.cons entry.2).trans (List.Perm.swap value entry.2 (rest.map Prod.snd))

theorem values_filter_ne_perm (key : κ) (entries : List (κ × α))
    (hn : (entries.map Prod.fst).Nodup) :
    ((entries.filter fun entry => entry.1 ≠ key).map Prod.snd ++ (find key entries).toList).Perm
      (entries.map Prod.snd) := by
  induction entries with
  | nil => simp [find]
  | cons entry rest ih =>
      obtain ⟨hnew, hrest⟩ := List.nodup_cons.mp hn
      by_cases h : entry.1 = key
      · -- no later entry has the key, so that the filter keeps them all
        have hkeep : (rest.filter fun entry => entry.1 ≠ key) = rest := by
          apply List.filter_eq_self.mpr
          intro other hm
          have hne : other.1 ≠ key := fun he =>
            hnew (h.trans he.symm ▸ List.mem_map_of_mem hm)
          simpa using hne
        rw [List.filter_cons_of_neg (by simp [h]), hkeep]
        simp [find, h]
      · rw [List.filter_cons_of_pos (by simp [h])]
        simpa [find, h] using (ih hrest).cons entry.2

theorem mem_iff_find (entries : List (κ × α)) (hn : (entries.map Prod.fst).Nodup) (key : κ)
    (value : α) : (key, value) ∈ entries ↔ find key entries = some value := by
  induction entries with
  | nil => simp [find]
  | cons entry rest ih =>
      obtain ⟨hnew, hrest⟩ := List.nodup_cons.mp hn
      by_cases h : entry.1 = key
      · have hrest : (key, value) ∉ rest := fun hm =>
          hnew (h ▸ List.mem_map_of_mem (f := Prod.fst) hm)
        simp only [List.mem_cons, hrest, or_false, find, if_pos h, Option.some.injEq]
        exact ⟨fun he => by rw [← he], fun he => by rw [← h, ← he]⟩
      · have hne : (key, value) ≠ entry := fun he => h (by rw [← he])
        simp only [List.mem_cons, hne, false_or, find, if_neg h, ih hrest]

theorem find_filter (keep : κ → Bool) (key : κ) (entries : List (κ × α)) :
    find key (entries.filter fun entry => keep entry.1) =
      if keep key then find key entries else none := by
  induction entries with
  | nil => simp [find]
  | cons entry rest ih =>
      by_cases h : entry.1 = key
      · subst h
        by_cases hk : keep entry.1 <;> simp [find, hk, ih]
      · by_cases hk : keep entry.1 <;> simp [find, h, hk, ih]

theorem find_map_snd {β : Type} (change : κ → α → β) (key : κ) (entries : List (κ × α)) :
    find key (entries.map fun entry => (entry.1, change entry.1 entry.2)) =
      (find key entries).map (change key) := by
  induction entries with
  | nil => rfl
  | cons entry rest ih =>
      by_cases h : entry.1 = key
      · simp [find, h]
      · simp [find, h, ih]

theorem put_map_snd {β : Type} (change : κ → α → β) (key : κ) (value : α)
    (entries : List (κ × α)) :
    (put key value entries).map (fun entry => (entry.1, change entry.1 entry.2)) =
      put key (change key value) (entries.map fun entry => (entry.1, change entry.1 entry.2)) := by
  induction entries with
  | nil => rfl
  | cons entry rest ih =>
      by_cases h : entry.1 = key
      · simp [put, h]
      · simp [put, h, ih]

omit [DecidableEq κ] in
theorem filter_map_snd {β : Type} (change : κ → α → β) (keep : κ → Bool)
    (entries : List (κ × α)) :
    ((entries.map fun entry => (entry.1, change entry.1 entry.2)).filter fun entry =>
      keep entry.1) =
      (entries.filter fun entry => keep entry.1).map fun entry =>
        (entry.1, change entry.1 entry.2) := by
  simp [List.filter_map, Function.comp_def]

theorem put_put (key : κ) (first second : α) (entries : List (κ × α)) :
    put key second (put key first entries) = put key second entries := by
  induction entries with
  | nil => simp [put]
  | cons entry rest ih =>
      by_cases h : entry.1 = key
      · simp [put, h]
      · simp [put, h, ih]

theorem put_of_find {key : κ} {value : α} {entries : List (κ × α)}
    (h : find key entries = some value) : put key value entries = entries := by
  induction entries with
  | nil => cases h
  | cons entry rest ih =>
      by_cases he : entry.1 = key
      · rw [find, if_pos he] at h
        rw [put, if_pos he, ← Option.some.inj h, ← he]
      · rw [find, if_neg he] at h
        rw [put, if_neg he, ih h]

-- A present key takes a new value where it stands.
theorem put_eq_map {key : κ} {entries : List (κ × α)} (value : α)
    (hm : key ∈ entries.map Prod.fst) (hn : (entries.map Prod.fst).Nodup) :
    put key value entries =
      entries.map fun entry => (entry.1, if entry.1 = key then value else entry.2) := by
  induction entries with
  | nil => cases hm
  | cons entry rest ih =>
      obtain ⟨hnew, hrest⟩ := List.nodup_cons.mp hn
      by_cases he : entry.1 = key
      · have hkeep : ∀ other ∈ rest,
            (other.1, if other.1 = key then value else other.2) = other := by
          intro other hother
          have hne : other.1 ≠ key := fun heq =>
            hnew (he.trans heq.symm ▸ List.mem_map_of_mem hother)
          rw [if_neg hne]
        rw [put, if_pos he, List.map_cons, if_pos he, he, List.map_congr_left hkeep, List.map_id']
      · have hm : key ∈ rest.map Prod.fst := by
          rcases List.mem_cons.mp hm with heq | hm
          · exact absurd heq.symm he
          · exact hm
        rw [put, if_neg he, List.map_cons, if_neg he, ih hm hrest]

theorem filter_ne_put (key : κ) (value : α) (entries : List (κ × α)) :
    ((put key value entries).filter fun entry => entry.1 ≠ key) =
      entries.filter fun entry => entry.1 ≠ key := by
  induction entries with
  | nil => simp [put]
  | cons entry rest ih =>
      by_cases h : entry.1 = key
      · simp [put, h]
      · rw [put, if_neg h, List.filter_cons_of_pos (by simp [h]),
          List.filter_cons_of_pos (by simp [h]), ih]

end Entries

namespace Table

variable {κ α β : Type}

theorem ext_entries {a b : Table κ α} (h : a.entries = b.entries) : a = b := by
  cases a
  cases b
  cases h
  rfl

def mapValues (f : α → β) (table : Table κ α) : Table κ β where
  entries := table.entries.map fun entry => (entry.1, f entry.2)
  nodup := by simpa [List.map_map, Function.comp_def] using table.nodup

theorem values_mapValues (f : α → β) (table : Table κ α) :
    (table.mapValues f).values = table.values.map f := by
  simp [mapValues, values]

theorem mapValues_congr {table : Table κ α} {f g : α → β}
    (h : ∀ entry ∈ table.entries, f entry.2 = g entry.2) :
    table.mapValues f = table.mapValues g := by
  apply ext_entries
  apply List.map_congr_left
  intro entry hm
  rw [h entry hm]

theorem mapValues_mapEntries (f : α → β) (table : Table κ α) (change : κ → α → α)
    (h : ∀ key value, f (change key value) = f value) :
    (table.mapEntries change).mapValues f = table.mapValues f := by
  apply ext_entries
  simp [mapValues, mapEntries, h]

theorem mapEntries_congr {table : Table κ α} {f g : κ → α → α}
    (h : ∀ entry ∈ table.entries, f entry.1 entry.2 = g entry.1 entry.2) :
    table.mapEntries f = table.mapEntries g := by
  apply ext_entries
  apply List.map_congr_left
  intro entry hm
  rw [h entry hm]

theorem mapEntries_mapEntries (table : Table κ α) (f g : κ → α → α) :
    (table.mapEntries f).mapEntries g = table.mapEntries fun key value => g key (f key value) := by
  apply ext_entries
  simp [mapEntries]

theorem keys_mapEntries (table : Table κ α) (change : κ → α → α) :
    (table.mapEntries change).keys = table.keys := by
  simp [keys, mapEntries, Function.comp_def]

theorem size_eq_length_values (table : Table κ α) : table.size = table.values.length := by
  simp [size, values]

variable [DecidableEq κ]

theorem get?_mapEntries (table : Table κ α) (change : κ → α → α) (key : κ) :
    (table.mapEntries change).get? key = (table.get? key).map (change key) :=
  Entries.find_map_snd change key table.entries

theorem get?_mapValues (table : Table κ α) (f : α → β) (key : κ) :
    (table.mapValues f).get? key = (table.get? key).map f :=
  Entries.find_map_snd (fun _ => f) key table.entries

theorem get?_filterKeys (keep : κ → Bool) (table : Table κ α) (key : κ) :
    (table.filterKeys keep).get? key = if keep key then table.get? key else none :=
  Entries.find_filter keep key table.entries

theorem mapValues_insert (table : Table κ α) (f : α → β) (key : κ) (value : α) :
    (table.insert key value).mapValues f = (table.mapValues f).insert key (f value) :=
  ext_entries (Entries.put_map_snd (fun _ => f) key value table.entries)

theorem mapValues_erase (table : Table κ α) (f : α → β) (key : κ) :
    (table.erase key).mapValues f = (table.mapValues f).erase key :=
  ext_entries (Entries.filter_map_snd (fun _ => f) (· ≠ key) table.entries).symm

theorem contains_eq_false_iff (table : Table κ α) (key : κ) :
    table.contains key = false ↔ table.get? key = none := by
  simp [contains]

theorem mem_values_iff (table : Table κ α) (value : α) :
    value ∈ table.values ↔ ∃ key, table.get? key = some value := by
  simp only [values, List.mem_map, Prod.exists, exists_eq_right, get?,
    ← Entries.mem_iff_find table.entries table.nodup]

theorem get?_of_mem_entries {table : Table κ α} {entry : κ × α} (h : entry ∈ table.entries) :
    table.get? entry.1 = some entry.2 :=
  (Entries.mem_iff_find table.entries table.nodup entry.1 entry.2).mp h

-- In whatever order entries are listed, their values are what is found under their keys.
theorem map_snd_eq_filterMap {table : Table κ α} {listed : List (κ × α)}
    (h : ∀ entry ∈ listed, entry ∈ table.entries) :
    listed.map Prod.snd = (listed.map Prod.fst).filterMap table.get? := by
  rw [List.filterMap_map, ← List.filterMap_eq_map]
  apply List.filterMap_congr
  intro entry hm
  exact (get?_of_mem_entries (h entry hm)).symm

-- What is said of the values that are found can be said of their keys.
theorem map_filterMap_get? {table : Table κ α} {keys : List κ} {f : α → β} {g : κ → β}
    (hkeys : ∀ key ∈ keys, key ∈ table.keys)
    (h : ∀ key value, table.get? key = some value → f value = g key) :
    (keys.filterMap table.get?).map f = keys.map g := by
  rw [List.map_filterMap, ← List.filterMap_eq_map]
  apply List.filterMap_congr
  intro key hm
  obtain ⟨value, hvalue⟩ :=
    Option.isSome_iff_exists.mp ((get?_isSome_iff table key).mpr (hkeys key hm))
  rw [hvalue, Option.map_some, h key value hvalue]
  rfl

theorem keys_insert_of_get? {table : Table κ α} {key : κ} {old : α}
    (h : table.get? key = some old) (new : α) : (table.insert key new).keys = table.keys := by
  rw [keys_insert, if_pos ((get?_isSome_iff table key).mp (Option.isSome_iff_exists.mpr ⟨old, h⟩))]

-- A new value of a present key stands where the old one stood, and nothing else moves.
theorem filterMap_get?_insert {table : Table κ α} {key : κ} {old : α}
    (h : table.get? key = some old) (new : α) {keys : List κ} (hkeys : keys.Perm table.keys) :
    ∃ front back, keys.filterMap table.get? = front ++ old :: back ∧
      keys.filterMap (table.insert key new).get? = front ++ new :: back := by
  have hm := (get?_isSome_iff table key).mp (Option.isSome_iff_exists.mpr ⟨old, h⟩)
  obtain ⟨before, after, rfl⟩ := List.append_of_mem (hkeys.mem_iff.mpr hm)
  have hnew : ∀ other ∈ before ++ after, (table.insert key new).get? other = table.get? other := by
    rintro other hother
    refine get?_insert_of_ne table new ?_
    rintro rfl
    exact (List.nodup_middle.mp (hkeys.nodup_iff.mpr table.keys_nodup)).notMem hother
  refine ⟨before.filterMap table.get?, after.filterMap table.get?, ?_, ?_⟩
  · rw [List.filterMap_append, List.filterMap_cons_some h]
  · rw [List.filterMap_append, List.filterMap_cons_some (get?_insert_self table key new),
      List.filterMap_congr fun other hother => hnew other (List.mem_append_left _ hother),
      List.filterMap_congr fun other hother => hnew other (List.mem_append_right _ hother)]

theorem insert_eq_mapEntries {table : Table κ α} {key : κ} {old : α}
    (h : table.get? key = some old) (new : α) :
    table.insert key new =
      table.mapEntries fun other value => if other = key then new else value := by
  apply ext_entries
  have hkey : key ∈ table.keys := (get?_isSome_iff table key).mp (by simp [h])
  exact Entries.put_eq_map new hkey table.keys_nodup

theorem insert_of_get? {table : Table κ α} {key : κ} {value : α}
    (h : table.get? key = some value) : table.insert key value = table :=
  ext_entries (Entries.put_of_find h)

-- Changes that differ for one present key only differ by the value of that key.
theorem mapEntries_eq_insert {table : Table κ α} {key : κ} {value : α} {f g : κ → α → α}
    (h : table.get? key = some value)
    (hother : ∀ other value, other ≠ key → g other value = f other value) :
    table.mapEntries g = (table.mapEntries f).insert key (g key value) := by
  have hf : (table.mapEntries f).get? key = some (f key value) := by
    rw [get?_mapEntries, h, Option.map_some]
  rw [insert_eq_mapEntries hf, mapEntries_mapEntries]
  apply mapEntries_congr
  intro entry hm
  by_cases he : entry.1 = key
  · have hvalue : entry.2 = value := by
      have hget := get?_of_mem_entries hm
      rw [he, h] at hget
      exact (Option.some.inj hget).symm
    rw [if_pos he, he, hvalue]
  · rw [if_neg he, hother _ _ he]

theorem mem_values_of_get? {table : Table κ α} {key : κ} {value : α}
    (h : table.get? key = some value) : value ∈ table.values :=
  (mem_values_iff table value).mpr ⟨key, h⟩

theorem values_insert_perm (table : Table κ α) (key : κ) (value : α) :
    ((table.insert key value).values ++ (table.get? key).toList).Perm (value :: table.values) :=
  Entries.values_put_perm key value table.entries

theorem values_erase_perm (table : Table κ α) (key : κ) :
    ((table.erase key).values ++ (table.get? key).toList).Perm table.values :=
  Entries.values_filter_ne_perm key table.entries table.nodup

theorem insert_insert (table : Table κ α) (key : κ) (first second : α) :
    (table.insert key first).insert key second = table.insert key second :=
  ext_entries (Entries.put_put key first second table.entries)

theorem erase_insert (table : Table κ α) (key : κ) (value : α) :
    (table.insert key value).erase key = table.erase key :=
  ext_entries (Entries.filter_ne_put key value table.entries)

theorem erase_of_get?_eq_none {table : Table κ α} {key : κ} (h : table.get? key = none) :
    table.erase key = table := by
  apply ext_entries
  apply List.filter_eq_self.mpr
  rintro ⟨other, value⟩ hm
  have hne : other ≠ key := by
    rintro rfl
    have hfind := (Entries.mem_iff_find table.entries table.nodup other value).mp hm
    exact nomatch hfind.symm.trans h
  simpa using hne

-- Gives a key its value, or takes it out.
def set (table : Table κ α) (key : κ) : Option α → Table κ α
  | some value => table.insert key value
  | none => table.erase key

theorem get?_set (table : Table κ α) (key other : κ) (value? : Option α) :
    (table.set key value?).get? other = if key = other then value? else table.get? other := by
  cases value? with
  | none => exact get?_erase table key other
  | some value => exact get?_insert table key other value

-- A key keeps its value.
theorem set_get? (table : Table κ α) (key : κ) : table.set key (table.get? key) = table := by
  cases h : table.get? key with
  | none => exact erase_of_get?_eq_none h
  | some value => exact insert_of_get? h

theorem mapValues_set (table : Table κ α) (f : α → β) (key : κ) (value? : Option α) :
    (table.set key value?).mapValues f = (table.mapValues f).set key (value?.map f) := by
  cases value? with
  | none => exact mapValues_erase table f key
  | some value => exact mapValues_insert table f key value

theorem values_set_perm (table : Table κ α) (key : κ) (value? : Option α) :
    ((table.set key value?).values ++ (table.get? key).toList).Perm
      (value?.toList ++ table.values) := by
  cases value? with
  | none => exact values_erase_perm table key
  | some value => exact values_insert_perm table key value

theorem set_set (table : Table κ α) (key : κ) (value : α) (value? : Option α) :
    (table.set key (some value)).set key value? = table.set key value? := by
  cases value? with
  | none => exact erase_insert table key value
  | some second => exact insert_insert table key value second

end Table

end DelayInjection
