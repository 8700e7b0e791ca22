import DelayInjection.ObjectTable

-- Identities of instances: different instances have different ones, and an identity that is
-- dropped never comes back, even for the same address.

namespace DelayInjection.ObjectTable

-- The identities in use are different, none of them is the static one, and all were given out.
structure Sound (table : ObjectTable) : Prop where
  started : staticObject < table.next
  given : ∀ address id, table.ids.get? address = some id → staticObject < id ∧ id < table.next
  injective : ∀ address other id, table.ids.get? address = some id →
    table.ids.get? other = some id → address = other

-- An identity that was given out and that no other address has.
structure Reserved (address : Address) (id : ObjectId) (table : ObjectTable) : Prop where
  given : id < table.next
  own : ∀ other, table.ids.get? other = some id → other = address

-- An identity that was given out and that no address has any more.
structure Retired (id : ObjectId) (table : ObjectTable) : Prop where
  given : id < table.next
  free : ∀ address, table.ids.get? address ≠ some id

section

variable {table : ObjectTable} {address : Address} {id : ObjectId}

theorem idOf_of_some (h : table.ids.get? address = some id) :
    table.idOf (some address) = (id, table) := by
  rw [idOf, h]

theorem idOf_of_none (h : table.ids.get? address = none) :
    table.idOf (some address) =
      (table.next, { ids := table.ids.insert address table.next, next := table.next + 1 }) := by
  rw [idOf, h]

-- A property that survives when a fresh identity is given out survives every question.
theorem idOf_preserves {P : ObjectTable → Prop} (h : P table)
    (hfresh : table.ids.get? address = none →
      P { ids := table.ids.insert address table.next, next := table.next + 1 }) :
    P (table.idOf (some address)).2 := by
  cases hget : table.ids.get? address with
  | some id =>
      rw [idOf_of_some hget]
      exact h
  | none =>
      rw [idOf_of_none hget]
      exact hfresh hget

theorem get?_idOf_self : (table.idOf (some address)).2.ids.get? address =
    some (table.idOf (some address)).1 := by
  cases hget : table.ids.get? address with
  | some id =>
      rw [idOf_of_some hget]
      exact hget
  | none =>
      rw [idOf_of_none hget]
      exact Table.get?_insert_self _ _ _

theorem get?_idOf (h : table.ids.get? address = some id) (other : Address) :
    (table.idOf (some other)).2.ids.get? address = some id := by
  refine idOf_preserves (P := fun table => table.ids.get? address = some id) h fun hnone => ?_
  have hne : other ≠ address := by
    rintro rfl
    rw [h] at hnone
    cases hnone
  rw [Table.get?_insert_of_ne _ _ hne, h]

theorem get?_forget (h : table.ids.get? address = some id) {other : Address}
    (hne : other ≠ address) : (table.forget other).2.ids.get? address = some id := by
  rw [forget, Table.get?_erase, if_neg hne, h]

theorem get?_of_get?_forget {other : Address}
    (h : (table.forget other).2.ids.get? address = some id) :
    table.ids.get? address = some id ∧ other ≠ address := by
  rw [forget, Table.get?_erase] at h
  split at h
  · cases h
  · rename_i hne
    exact ⟨h, hne⟩

theorem Sound.fresh : Sound {} where
  started := Nat.zero_lt_one
  given _ _ h := by cases h
  injective _ _ _ h := by cases h

theorem Sound.idOf (h : table.Sound) (address : Address) :
    (table.idOf (some address)).2.Sound := by
  refine idOf_preserves h fun _ => ⟨Nat.lt_succ_of_lt h.started, ?_, ?_⟩
  · intro other id hget
    rw [Table.get?_insert] at hget
    split at hget
    · rw [← Option.some.inj hget]
      exact ⟨h.started, Nat.lt_succ_self _⟩
    · exact (h.given other id hget).imp_right Nat.lt_succ_of_lt
  · -- the new identity is larger than all others
    intro first second id hfirst hsecond
    rw [Table.get?_insert] at hfirst hsecond
    split at hfirst <;> split at hsecond
    · rename_i he he'
      rw [← he, ← he']
    · have hlt := (h.given second id hsecond).2
      rw [← Option.some.inj hfirst] at hlt
      exact absurd hlt (Nat.lt_irrefl _)
    · have hlt := (h.given first id hfirst).2
      rw [← Option.some.inj hsecond] at hlt
      exact absurd hlt (Nat.lt_irrefl _)
    · exact h.injective first second id hfirst hsecond

theorem Sound.forget (h : table.Sound) (address : Address) : (table.forget address).2.Sound where
  started := h.started
  given other id hget := h.given other id (get?_of_get?_forget hget).1
  injective first second id hfirst hsecond :=
    h.injective first second id (get?_of_get?_forget hfirst).1 (get?_of_get?_forget hsecond).1

-- Every identity is larger than the static one.
theorem Sound.static_lt_idOf (h : table.Sound) (address : Address) :
    staticObject < (table.idOf (some address)).1 :=
  ((h.idOf address).given address _ get?_idOf_self).1

theorem Sound.reserved (h : table.Sound) (hget : table.ids.get? address = some id) :
    Reserved address id table :=
  ⟨(h.given address id hget).2, fun other hother => h.injective other address id hother hget⟩

theorem Reserved.idOf (h : Reserved address id table) (other : Address) :
    Reserved address id (table.idOf (some other)).2 := by
  refine idOf_preserves h fun _ => ⟨Nat.lt_succ_of_lt h.given, ?_⟩
  intro third hget
  rw [Table.get?_insert] at hget
  split at hget
  · exact absurd (Option.some.inj hget) (Nat.ne_of_gt h.given)
  · exact h.own third hget

theorem Reserved.forget (h : Reserved address id table) (other : Address) :
    Reserved address id (table.forget other).2 :=
  ⟨h.given, fun third hget => h.own third (get?_of_get?_forget hget).1⟩

-- Another address is never given the identity.
theorem Reserved.eq_of_idOf (h : Reserved address id table) {other : Address}
    (he : (table.idOf (some other)).1 = id) : other = address := by
  apply (h.idOf other).own
  rw [get?_idOf_self, he]

theorem Sound.retired (h : table.Sound) (hget : table.ids.get? address = some id) :
    Retired id (table.forget address).2 where
  given := (h.given address id hget).2
  free other hother := by
    obtain ⟨hother, hne⟩ := get?_of_get?_forget hother
    exact hne (h.injective address other id hget hother)

theorem Retired.idOf (h : Retired id table) (address : Address) :
    Retired id (table.idOf (some address)).2 := by
  refine idOf_preserves h fun _ => ⟨Nat.lt_succ_of_lt h.given, ?_⟩
  intro other hget
  rw [Table.get?_insert] at hget
  split at hget
  · exact absurd (Option.some.inj hget) (Nat.ne_of_gt h.given)
  · exact h.free other hget

theorem Retired.forget (h : Retired id table) (address : Address) :
    Retired id (table.forget address).2 :=
  ⟨h.given, fun other hget => h.free other (get?_of_get?_forget hget).1⟩

-- No address ever gets the identity again.
theorem Retired.idOf_ne (h : Retired id table) (address : Address) :
    (table.idOf (some address)).1 ≠ id := by
  intro he
  apply (h.idOf address).free address
  rw [get?_idOf_self, he]

end

end DelayInjection.ObjectTable
