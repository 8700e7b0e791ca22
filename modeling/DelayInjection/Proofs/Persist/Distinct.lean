import Mathlib.Data.List.Basic
import Mathlib.Data.List.Induction
import Mathlib.Data.List.Nodup
import Mathlib.Data.List.Perm.Basic
import DelayInjection.Persist.Replay

-- The distinct items of a list: every item once, in the order in which they first come.

namespace DelayInjection

-- What distinct items are, however they are found.
structure FirstsOf {α : Type} [DecidableEq α] (items firsts : List α) : Prop where
  mem : ∀ item, item ∈ firsts ↔ item ∈ items
  order : firsts.Pairwise fun a b => items.idxOf a < items.idxOf b

section

variable {α β : Type} [DecidableEq α] [DecidableEq β]

theorem mem_distinct {items : List α} {item : α} : item ∈ distinct items ↔ item ∈ items := by
  induction items with
  | nil => rfl
  | cons first rest ih =>
      rw [distinct, List.mem_cons, List.mem_cons, List.mem_filter, ih]
      by_cases h : item = first <;> simp [h]

theorem firstsOf_distinct (items : List α) : FirstsOf items (distinct items) := by
  refine ⟨fun item => mem_distinct, ?_⟩
  induction items with
  | nil => exact List.Pairwise.nil
  | cons first rest ih =>
      have hlater : ∀ item ∈ (distinct rest).filter (· ≠ first),
          (first :: rest).idxOf item = rest.idxOf item + 1 := by
        intro item hm
        have hne : item ≠ first := by simpa using (List.mem_filter.mp hm).2
        exact List.idxOf_cons_ne rest (Ne.symm hne)
      rw [distinct, List.pairwise_cons]
      constructor
      · intro item hm
        rw [hlater item hm, List.idxOf_cons_self]
        exact Nat.succ_pos _
      · refine (ih.filter _).imp_of_mem fun {a b} ha hb hab => ?_
        rw [hlater a ha, hlater b hb]
        exact Nat.succ_lt_succ hab

theorem FirstsOf.nodup {items firsts : List α} (h : FirstsOf items firsts) : firsts.Nodup :=
  h.order.imp fun {a b} hab he => absurd hab (by simp [he])

theorem nodup_distinct (items : List α) : (distinct items).Nodup :=
  (firstsOf_distinct items).nodup

-- In another order the same items are distinct.
theorem FirstsOf.perm {items others firsts firsts' : List α} (h : FirstsOf items firsts)
    (h' : FirstsOf others firsts') (hperm : items.Perm others) : firsts.Perm firsts' :=
  (List.perm_ext_iff_of_nodup h.nodup h'.nodup).mpr fun item => by
    rw [h.mem, h'.mem, hperm.mem_iff]

theorem distinct_concat (items : List α) (item : α) :
    distinct (items ++ [item]) =
      if item ∈ items then distinct items else distinct items ++ [item] := by
  induction items with
  | nil => rfl
  | cons first rest ih =>
      rw [List.cons_append, distinct, ih, distinct]
      by_cases hfirst : item = first
      · subst hfirst
        rw [if_pos List.mem_cons_self]
        split
        · rfl
        · simp
      · by_cases hrest : item ∈ rest
        · rw [if_pos hrest, if_pos (List.mem_cons_of_mem _ hrest)]
        · rw [if_neg hrest, if_neg (by simp [hfirst, hrest])]
          simp [hfirst]

-- Items that are pushed unless they are there already.
theorem foldl_push (items : List α) :
    items.foldl (fun kept item => if kept.contains item then kept else kept ++ [item]) [] =
      distinct items := by
  induction items using List.reverseRecOn with
  | nil => rfl
  | append_singleton front item ih =>
      rw [List.foldl_append, ih, distinct_concat]
      simp [mem_distinct]

-- Items that are inserted into a set.
theorem mem_foldl_insert {items kept : List α} {item : α} :
    item ∈ items.foldl (fun kept item => kept.insert item) kept ↔
      item ∈ kept ∨ item ∈ items := by
  induction items generalizing kept with
  | nil => simp
  | cons first rest ih =>
      rw [List.foldl_cons, ih, List.mem_insert_iff, List.mem_cons, or_left_comm,
        or_assoc]

theorem nodup_foldl_insert {items kept : List α} (h : kept.Nodup) :
    (items.foldl (fun kept item => kept.insert item) kept).Nodup := by
  induction items generalizing kept with
  | nil => exact h
  | cons first rest ih => exact ih h.insert

-- Texts that tell their items apart are repeated where their items are.
theorem distinct_map {f : α → β} {items : List α}
    (h : ∀ a ∈ items, ∀ b ∈ items, f a = f b → a = b) :
    distinct (items.map f) = (distinct items).map f := by
  induction items with
  | nil => rfl
  | cons first rest ih =>
      have hrest := ih fun a ha b hb =>
        h a (List.mem_cons_of_mem _ ha) b (List.mem_cons_of_mem _ hb)
      rw [List.map_cons, distinct, hrest, distinct, List.map_cons, List.filter_map]
      congr 2
      apply List.filter_congr
      intro other hother
      have hm := List.mem_cons_of_mem first (mem_distinct.mp hother)
      have hiff : f other = f first ↔ other = first :=
        ⟨h other hm first List.mem_cons_self, congrArg f⟩
      simp [hiff]

-- The first of the distinct items with a property is the first of all.
theorem find?_distinct (items : List α) (keep : α → Bool) :
    (distinct items).find? keep = items.find? keep := by
  induction items with
  | nil => rfl
  | cons item rest ih =>
      rw [distinct, List.find?_cons, List.find?_cons]
      cases hitem : keep item with
      | true => rfl
      | false =>
          have hrest : ∀ other, (decide (other ≠ item) && keep other) = keep other := by
            intro other
            by_cases he : other = item
            · simp [he, hitem]
            · simp [he]
          simp only [List.find?_filter, Bool.decide_and, Bool.decide_eq_true, hrest, ih]

end

end DelayInjection
