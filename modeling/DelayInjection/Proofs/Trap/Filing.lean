import Mathlib.Data.List.Basic
import Mathlib.Data.List.Perm.Basic
import DelayInjection.Trap.Store
import DelayInjection.Proofs.Table

-- What the buckets hold: by group and object, as lists, and as a whole.

namespace DelayInjection

-- A total of sizes is the size of everything put together.
theorem foldr_sizes_eq_length {α : Type} {size : α → Nat} {items : α → List Trap}
    (h : ∀ a, size a = (items a).length) (l : List α) :
    l.foldr (fun a rest => size a + rest) 0 = (l.flatMap items).length := by
  induction l with
  | nil => rfl
  | cons a rest ih => rw [List.foldr_cons, ih, h, List.flatMap_cons, List.length_append]

namespace TrapBucket

def all (bucket : TrapBucket) : List Trap := bucket.traps.values.flatten

theorem size_eq_length_all (bucket : TrapBucket) : bucket.size = bucket.all.length := by
  rw [size, foldr_sizes_eq_length fun _ => rfl, List.flatMap_id']
  rfl

theorem mem_all_iff (bucket : TrapBucket) (trap : Trap) :
    trap ∈ bucket.all ↔ ∃ object, trap ∈ bucket.on object := by
  simp only [all, List.mem_flatten, Table.mem_values_iff, on]
  constructor
  · rintro ⟨traps, ⟨object, hget⟩, hm⟩
    exact ⟨object, by simpa [hget] using hm⟩
  · rintro ⟨object, hm⟩
    cases hget : bucket.traps.get? object with
    | none => simp [hget] at hm
    | some traps => exact ⟨traps, ⟨object, hget⟩, by simpa [hget] using hm⟩

theorem on_register (bucket : TrapBucket) (trap : Trap) (object : ObjectId) :
    (bucket.register trap).on object =
      if trap.object = object then bucket.on object ++ [trap] else bucket.on object := by
  by_cases h : trap.object = object
  · simp [register, on, h]
  · simp [register, on, Table.get?_insert, h]

theorem on_remove (bucket : TrapBucket) (trap : Trap) (object : ObjectId) :
    (bucket.remove trap).on object =
      if trap.object = object then (bucket.on object).filter (·.id != trap.id)
      else bucket.on object := by
  by_cases h : trap.object = object
  · subst object
    unfold remove
    cases hget : bucket.traps.get? trap.object with
    | none => simp [on, hget]
    | some traps =>
        by_cases hkept : (traps.filter (·.id != trap.id)).isEmpty
        · simp [on, hget, Table.get?_erase, List.isEmpty_iff.mp hkept]
        · simp [on, hget, hkept]
  · unfold remove
    cases hget : bucket.traps.get? trap.object with
    | none => simp [h]
    | some traps =>
        by_cases hkept : (traps.filter (·.id != trap.id)).isEmpty
        · simp [on, hkept, h, Table.get?_erase]
        · simp [on, hkept, h, Table.get?_insert]

-- The list of the object takes the place of the one that was there, in the bucket as a whole.
theorem all_insert_perm (bucket : TrapBucket) (object : ObjectId) (traps : List Trap) :
    ((TrapBucket.mk (bucket.traps.insert object traps)).all ++ bucket.on object).Perm
      (traps ++ bucket.all) := by
  have h := (Table.values_insert_perm bucket.traps object traps).flatten
  have hon : (bucket.traps.get? object).toList.flatten = bucket.on object := by
    cases hget : bucket.traps.get? object <;> simp [on, hget]
  simpa only [all, List.flatten_append, List.flatten_cons, hon] using h

theorem all_erase_perm (bucket : TrapBucket) (object : ObjectId) :
    ((TrapBucket.mk (bucket.traps.erase object)).all ++ bucket.on object).Perm bucket.all := by
  have h := (Table.values_erase_perm bucket.traps object).flatten
  have hon : (bucket.traps.get? object).toList.flatten = bucket.on object := by
    cases hget : bucket.traps.get? object <;> simp [on, hget]
  simpa only [all, List.flatten_append, hon] using h

theorem all_register_perm (bucket : TrapBucket) (trap : Trap) :
    (bucket.register trap).all.Perm (trap :: bucket.all) := by
  have h := bucket.all_insert_perm trap.object (bucket.on trap.object ++ [trap])
  have hmove : (bucket.on trap.object ++ [trap] ++ bucket.all).Perm
      (trap :: bucket.all ++ bucket.on trap.object) := by
    rw [List.append_assoc, List.singleton_append]
    exact List.perm_append_comm
  exact (List.perm_append_right_iff (bucket.on trap.object)).mp (h.trans hmove)

-- What is removed is what the list of the object holds under the number of the trap.
theorem all_remove_perm (bucket : TrapBucket) (trap : Trap) :
    ((bucket.remove trap).all ++ (bucket.on trap.object).filter (·.id == trap.id)).Perm
      bucket.all := by
  unfold remove
  cases hget : bucket.traps.get? trap.object with
  | none => simp [on, hget]
  | some traps =>
      have hon : bucket.on trap.object = traps := by simp [on, hget]
      have hsplit : (traps.filter (·.id != trap.id) ++ traps.filter (·.id == trap.id)).Perm
          traps := by
        have h := List.filter_append_perm (fun other : Trap => other.id != trap.id) traps
        have hnot : (traps.filter fun other => !(other.id != trap.id)) =
            traps.filter (·.id == trap.id) := by
          congr 1
          funext other
          simp [bne]
        rwa [hnot] at h
      by_cases hkept : (traps.filter (·.id != trap.id)).isEmpty
      · have h := bucket.all_erase_perm trap.object
        rw [List.isEmpty_iff.mp hkept, List.nil_append] at hsplit
        simp only [hkept, if_true, hon] at h ⊢
        exact (hsplit.append_left _).trans h
      · have h := bucket.all_insert_perm trap.object (traps.filter (·.id != trap.id))
        rw [hon] at h ⊢
        simp only [hkept, Bool.false_eq_true, if_false]
        -- the list that was there consists of what is kept and what is removed
        apply List.perm_iff_count.mpr
        intro other
        have hinsert := h.count_eq other
        have hparts := hsplit.count_eq other
        simp only [List.count_append] at hinsert hparts ⊢
        omega

end TrapBucket

namespace TrapStore

-- The traps of a group on an object, in order of registration.
def on (store : TrapStore) (group : String) (object : ObjectId) : List Trap :=
  (store.bucket group).on object

def all (store : TrapStore) : List Trap := store.buckets.values.flatMap TrapBucket.all

theorem outstanding_eq_length_all (store : TrapStore) :
    store.outstanding = store.all.length :=
  foldr_sizes_eq_length TrapBucket.size_eq_length_all store.buckets.values

theorem mem_all_iff (store : TrapStore) (trap : Trap) :
    trap ∈ store.all ↔ ∃ group object, trap ∈ store.on group object := by
  simp only [all, List.mem_flatMap, Table.mem_values_iff, TrapBucket.mem_all_iff, on, bucket]
  constructor
  · rintro ⟨bucket, ⟨group, hget⟩, object, hm⟩
    exact ⟨group, object, by simpa [hget] using hm⟩
  · rintro ⟨group, object, hm⟩
    cases hget : store.buckets.get? group with
    | none => simp [hget, TrapBucket.on] at hm
    | some bucket => exact ⟨bucket, ⟨group, hget⟩, object, by simpa [hget] using hm⟩

theorem bucket_insert (store : TrapStore) (group other : String) (bucket : TrapBucket) :
    (TrapStore.mk (store.buckets.insert group bucket) store.lastId).bucket other =
      if group = other then bucket else store.bucket other := by
  rw [TrapStore.bucket, Table.get?_insert]
  split <;> rfl

theorem on_insert (store : TrapStore) (group other : String) (bucket : TrapBucket)
    (object : ObjectId) :
    (TrapStore.mk (store.buckets.insert group bucket) store.lastId).on other object =
      if group = other then bucket.on object else store.on other object := by
  rw [on, bucket_insert]
  split <;> rfl

-- Files a trap in the bucket of any group. The group of the trap is the one that `register` takes.
def registerIn (store : TrapStore) (group : String) (trap : Trap) : TrapStore :=
  { store with buckets := store.buckets.insert group ((store.bucket group).register trap) }

theorem on_registerIn (store : TrapStore) (group : String) (trap : Trap) (other : String)
    (object : ObjectId) :
    (store.registerIn group trap).on other object =
      if group = other ∧ trap.object = object then store.on other object ++ [trap]
      else store.on other object := by
  rw [registerIn, on_insert, TrapBucket.on_register]
  by_cases h : group = other
  · subst other
    simp [on]
  · simp [h]

theorem on_register (store : TrapStore) (trap : Trap) (group : String) (object : ObjectId) :
    (store.register trap).on group object =
      if trap.group = group ∧ trap.object = object then store.on group object ++ [trap]
      else store.on group object :=
  store.on_registerIn trap.group trap group object

theorem on_removeFrom (store : TrapStore) (group : String) (trap : Trap) (other : String)
    (object : ObjectId) :
    (store.removeFrom group trap).on other object =
      if group = other ∧ trap.object = object then
        (store.on other object).filter (·.id != trap.id)
      else store.on other object := by
  rw [removeFrom, on_insert, TrapBucket.on_remove]
  by_cases h : group = other
  · subst other
    simp [on]
  · simp [h]

theorem on_remove (store : TrapStore) (trap : Trap) (group : String) (object : ObjectId) :
    (store.remove trap).on group object =
      if trap.group = group ∧ trap.object = object then
        (store.on group object).filter (·.id != trap.id)
      else store.on group object :=
  store.on_removeFrom trap.group trap group object

theorem all_insert_perm (store : TrapStore) (group : String) (bucket : TrapBucket) :
    ((TrapStore.mk (store.buckets.insert group bucket) store.lastId).all ++
      (store.bucket group).all).Perm (bucket.all ++ store.all) := by
  have h := (Table.values_insert_perm store.buckets group bucket).flatMap_right TrapBucket.all
  have hold : (store.buckets.get? group).toList.flatMap TrapBucket.all =
      (store.bucket group).all := by
    cases hget : store.buckets.get? group with
    | none => simp [TrapStore.bucket, hget, TrapBucket.all, Table.values, Table.empty]
    | some old => simp [TrapStore.bucket, hget]
  simpa only [all, List.flatMap_append, List.flatMap_cons, hold] using h

theorem all_registerIn_perm (store : TrapStore) (group : String) (trap : Trap) :
    (store.registerIn group trap).all.Perm (trap :: store.all) := by
  have h := store.all_insert_perm group ((store.bucket group).register trap)
  have hregister := (store.bucket group).all_register_perm trap
  apply List.perm_iff_count.mpr
  intro other
  have hbuckets := h.count_eq other
  have hbucket := hregister.count_eq other
  simp only [List.count_append, List.count_cons, registerIn] at hbuckets hbucket ⊢
  omega

theorem all_register_perm (store : TrapStore) (trap : Trap) :
    (store.register trap).all.Perm (trap :: store.all) :=
  store.all_registerIn_perm trap.group trap

-- What is removed is what the list of the trap holds under its number.
theorem all_removeFrom_perm (store : TrapStore) (group : String) (trap : Trap) :
    ((store.removeFrom group trap).all ++
      (store.on group trap.object).filter (·.id == trap.id)).Perm store.all := by
  have h := store.all_insert_perm group ((store.bucket group).remove trap)
  have hremove := (store.bucket group).all_remove_perm trap
  apply List.perm_iff_count.mpr
  intro other
  have hbuckets := h.count_eq other
  have hbucket := hremove.count_eq other
  simp only [List.count_append, removeFrom, on] at hbuckets hbucket ⊢
  omega

theorem all_remove_perm (store : TrapStore) (trap : Trap) :
    ((store.remove trap).all ++ (store.on trap.group trap.object).filter (·.id == trap.id)).Perm
      store.all :=
  store.all_removeFrom_perm trap.group trap

theorem id_ne_of_nodup {first : Trap} {rest : List Trap}
    (hids : ((first :: rest).map Trap.id).Nodup) : ∀ other ∈ rest, other.id ≠ first.id := by
  intro other hm he
  exact (List.nodup_cons.mp hids).1 (he ▸ List.mem_map_of_mem hm)

-- Numbers that are not repeated name a single trap.
theorem filter_id_eq_singleton {traps : List Trap} {trap : Trap} (hm : trap ∈ traps)
    (hids : (traps.map Trap.id).Nodup) : traps.filter (·.id == trap.id) = [trap] := by
  induction traps with
  | nil => simp at hm
  | cons first rest ih =>
      have hnew := id_ne_of_nodup hids
      rcases List.mem_cons.mp hm with rfl | hm
      · have hnone : rest.filter (·.id == trap.id) = [] := by
          apply List.filter_eq_nil_iff.mpr
          intro other ho
          simpa using hnew other ho
        simp [hnone]
      · have hne : first.id ≠ trap.id := (hnew trap hm).symm
        simpa [hne] using ih hm (List.nodup_cons.mp hids).2

-- The first of ordered traps is the one with the least number.
theorem mem_take_one_iff {traps : List Trap} (h : traps.Pairwise fun a b => a.id < b.id)
    (trap : Trap) :
    trap ∈ traps.take 1 ↔ trap ∈ traps ∧ ∀ other ∈ traps, trap.id ≤ other.id := by
  cases traps with
  | nil => simp
  | cons first rest =>
      obtain ⟨hfirst, -⟩ := List.pairwise_cons.mp h
      rw [List.take_succ_cons, List.take_zero, List.mem_singleton]
      constructor
      · rintro rfl
        refine ⟨List.mem_cons_self, fun other hm => ?_⟩
        rcases List.mem_cons.mp hm with rfl | hm
        · exact Nat.le_refl _
        · exact Nat.le_of_lt (hfirst other hm)
      · rintro ⟨hm, hleast⟩
        rcases List.mem_cons.mp hm with rfl | hm
        · rfl
        · have hlt := hfirst trap hm
          have hle := hleast first List.mem_cons_self
          omega

-- Every trap lies where its group and object say, under a number of its own, and every list is
-- in the order in which the numbers were given out.
structure Sound (store : TrapStore) : Prop where
  placed : ∀ group object, ∀ trap ∈ store.on group object,
    trap.group = group ∧ trap.object = object
  ids : (store.all.map Trap.id).Nodup
  issued : ∀ trap ∈ store.all, trap.id ≤ store.lastId
  ordered : ∀ group object, (store.on group object).Pairwise fun a b => a.id < b.id

theorem Sound.empty : Sound {} where
  placed group object trap hm := by simp [on, bucket, TrapBucket.on] at hm
  ids := by simp [all, Table.values, Table.empty]
  issued trap hm := by simp [all, Table.values, Table.empty] at hm
  ordered group object := by simp [on, bucket, TrapBucket.on]

theorem Sound.mem_all_iff {store : TrapStore} (h : store.Sound) (trap : Trap) :
    trap ∈ store.all ↔ trap ∈ store.on trap.group trap.object := by
  rw [TrapStore.mem_all_iff]
  constructor
  · rintro ⟨group, object, hm⟩
    obtain ⟨rfl, rfl⟩ := h.placed group object trap hm
    exact hm
  · exact fun hm => ⟨trap.group, trap.object, hm⟩

-- The next number is larger than all that were given out.
theorem Sound.register {store : TrapStore} (h : store.Sound) {trap : Trap}
    (hid : trap.id = store.lastId + 1) :
    Sound ({ store with lastId := trap.id }.register trap) := by
  have hon : ∀ group object,
      ({ store with lastId := trap.id }.register trap).on group object =
        if trap.group = group ∧ trap.object = object then store.on group object ++ [trap]
        else store.on group object := on_register { store with lastId := trap.id } trap
  have hall : ({ store with lastId := trap.id }.register trap).all.Perm (trap :: store.all) :=
    all_register_perm { store with lastId := trap.id } trap
  have hlater : ∀ group object, ∀ other ∈ store.on group object, other.id < trap.id := by
    intro group object other hm
    have := h.issued other ((store.mem_all_iff other).mpr ⟨group, object, hm⟩)
    omega
  refine ⟨?_, ?_, ?_, ?_⟩
  · intro group object other hm
    rw [hon] at hm
    split at hm
    · rename_i hplace
      rcases List.mem_append.mp hm with hm | hm
      · exact h.placed group object other hm
      · exact (List.mem_singleton.mp hm) ▸ hplace
    · exact h.placed group object other hm
  · rw [(hall.map Trap.id).nodup_iff, List.map_cons, List.nodup_cons]
    refine ⟨?_, h.ids⟩
    intro hm
    obtain ⟨other, ho, he⟩ := List.mem_map.mp hm
    have := h.issued other ho
    omega
  · intro other hm
    change other.id ≤ trap.id
    rcases List.mem_cons.mp (hall.mem_iff.mp hm) with rfl | hm
    · exact Nat.le_refl _
    · have := h.issued other hm
      omega
  · intro group object
    rw [hon]
    split
    · rw [List.pairwise_append]
      refine ⟨h.ordered group object, List.pairwise_singleton _ _, ?_⟩
      intro other hm last hl
      exact (List.mem_singleton.mp hl) ▸ hlater group object other hm
    · exact h.ordered group object

theorem on_remove_sublist (store : TrapStore) (trap : Trap) (group : String)
    (object : ObjectId) :
    ((store.remove trap).on group object).Sublist (store.on group object) := by
  rw [on_remove]
  split
  · exact List.filter_sublist
  · exact List.Sublist.refl _

-- A trap that is in place is the only one that its removal takes away.
theorem Sound.remove_perm {store : TrapStore} (h : store.Sound) {trap : Trap}
    (hm : trap ∈ store.all) : (trap :: (store.remove trap).all).Perm store.all := by
  have hmem := (h.mem_all_iff trap).mp hm
  have hids : ((store.on trap.group trap.object).map Trap.id).Nodup := by
    have hp := h.ordered trap.group trap.object
    exact List.pairwise_map.mpr (hp.imp fun hlt => Nat.ne_of_lt hlt)
  have hperm := store.all_remove_perm trap
  rw [filter_id_eq_singleton hmem hids] at hperm
  exact (List.perm_append_singleton trap _).symm.trans hperm

theorem Sound.remove {store : TrapStore} (h : store.Sound) (trap : Trap) :
    (store.remove trap).Sound := by
  have hmem : ∀ other ∈ (store.remove trap).all, other ∈ store.all := fun other hm =>
    (store.all_remove_perm trap).mem_iff.mp (List.mem_append_left _ hm)
  refine ⟨?_, ?_, ?_, ?_⟩
  · intro group object other hm
    exact h.placed group object other ((store.on_remove_sublist trap group object).subset hm)
  · have hp := (store.all_remove_perm trap).map Trap.id
    rw [List.map_append] at hp
    exact (List.nodup_append.mp (hp.nodup_iff.mpr h.ids)).1
  · exact fun other hm => h.issued other (hmem other hm)
  · exact fun group object =>
      (h.ordered group object).sublist (store.on_remove_sublist trap group object)

end TrapStore

end DelayInjection
