import Mathlib.Data.List.Basic
import Mathlib.Data.List.DropRight
import DelayInjection.History.AccessLog
import DelayInjection.Proofs.Table

-- The queues of the access log: what an access and a freed object do to them.

namespace DelayInjection

-- The end of a list that was cut before ends as that of the whole list.
theorem rtake_concat_rtake {α : Type} (items : List α) (item : α) {count : Nat}
    (h : 1 ≤ count) :
    (items.rtake count ++ [item]).rtake count = (items ++ [item]).rtake count := by
  obtain ⟨left, rfl⟩ : ∃ left, count = left + 1 := ⟨count - 1, by omega⟩
  rw [List.rtake_concat_succ, List.rtake_concat_succ]
  simp only [List.rtake, List.length_drop, List.drop_drop]
  congr 2
  omega

namespace AccessLog

-- Every queue holds accesses to its own object.
def Filed (log : AccessLog) : Prop :=
  ∀ group object, ∀ point ∈ log.queue group object, point.object = object

theorem queue_push (log : AccessLog) (group : String) (point : Point) (other : String)
    (object : ObjectId) :
    (log.push group point).2.queue other object =
      if group = other ∧ point.object = object then
        newest log.window (log.queue group point.object ++ [point])
      else log.queue other object := by
  simp only [queue, push, Table.get?_insert, Prod.mk.injEq]
  split <;> rfl

theorem queue_forget (log : AccessLog) (id : ObjectId) (group : String) (object : ObjectId) :
    (log.forget id).2.queue group object = if object = id then [] else log.queue group object := by
  simp only [queue, forget, Table.get?_filterKeys]
  by_cases h : object = id <;> simp [h]

theorem newest_isSuffix {α : Type} (count : Nat) (items : List α) : newest count items <:+ items :=
  List.drop_suffix _ _

theorem length_newest_le {α : Type} (count : Nat) (items : List α) :
    (newest count items).length ≤ count := by
  rw [newest, List.length_drop]
  omega

-- A short end of a list is an end of its newest items.
theorem isSuffix_newest {α : Type} {count : Nat} {last items : List α} (h : last <:+ items)
    (hlength : last.length ≤ count) : last <:+ newest count items := by
  apply List.suffix_of_suffix_length_le h (newest_isSuffix count items)
  have hle := h.length_le
  rw [newest, List.length_drop]
  omega

theorem newest_map {α β : Type} (f : α → β) (count : Nat) (items : List α) :
    (newest count items).map f = newest count (items.map f) := by
  rw [newest, newest, List.map_drop, List.length_map]

theorem Filed.push {log : AccessLog} (h : log.Filed) (group : String) (point : Point) :
    (log.push group point).2.Filed := by
  intro other object kept hm
  rw [queue_push] at hm
  split at hm
  · rename_i hkey
    rcases List.mem_append.mp ((newest_isSuffix _ _).subset hm) with hold | hnew
    · exact (h group point.object kept hold).trans hkey.2
    · rw [List.mem_singleton.mp hnew]
      exact hkey.2
  · exact h other object kept hm

theorem Filed.forget {log : AccessLog} (h : log.Filed) (id : ObjectId) :
    (log.forget id).2.Filed := by
  intro group object kept hm
  rw [queue_forget] at hm
  split at hm
  · cases hm
  · exact h group object kept hm

end AccessLog

end DelayInjection
