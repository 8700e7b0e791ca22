import Mathlib.Data.Finset.Card
import Mathlib.Data.List.Count
import Mathlib.Data.List.DropRight
import DelayInjection.History.RecentThreads
import DelayInjection.Proofs.History.AccessLog

-- What the ring of recent threads holds after any calls. It is the end of the list of callers, and
-- the count kept for a thread is the number of its entries in the ring, so that a thread that
-- leaves always finds a count to be taken from, and the threads with a count are those in the ring.

namespace DelayInjection

namespace RecentThreads

-- The counts kept are those of the ring, and none is kept for a thread that is not in it.
def Tallied (ring : List ThreadId) (counts : Table ThreadId Nat) : Prop :=
  ∀ thread, counts.get? thread = if thread ∈ ring then some (ring.count thread) else none

-- The threads that leave a ring, each with the count that is found for it.
def leavers (capacity : Nat) : List ThreadId → Table ThreadId Nat → List (ThreadId × Option Nat)
  | [], _ => []
  | thread :: rest, counts =>
      if capacity < (thread :: rest).length then
        (thread, counts.get? thread) :: leavers capacity rest (release counts thread)
      else []

-- The threads that leave when a call is recorded.
def leaversAt (history : RecentThreads) (thread : ThreadId) : List (ThreadId × Option Nat) :=
  leavers history.capacity (history.ring ++ [thread])
    (history.counts.insert thread ((history.counts.get? thread).getD 0 + 1))

-- The answers to calls of some threads, and the ring after them.
def pushed (state : List Nat × RecentThreads) (thread : ThreadId) : List Nat × RecentThreads :=
  (state.1 ++ [(state.2.push thread).1], (state.2.push thread).2)

def pushAll (capacity : Nat) (threads : List ThreadId) : List Nat × RecentThreads :=
  threads.foldl pushed ([], ofCapacity capacity)

section

variable {ring : List ThreadId} {counts : Table ThreadId Nat} {thread : ThreadId}

theorem Tallied.empty : Tallied [] .empty := by
  intro thread
  simp

theorem Tallied.enter (h : Tallied ring counts) (thread : ThreadId) :
    Tallied (ring ++ [thread])
      (counts.insert thread ((counts.get? thread).getD 0 + 1)) := by
  intro other
  rw [Table.get?_insert, h thread, List.count_append]
  by_cases he : thread = other
  · subst he
    by_cases hm : thread ∈ ring
    · simp [hm]
    · simp [hm, List.count_eq_zero_of_not_mem hm]
  · have hm : other ∈ ring ++ [thread] ↔ other ∈ ring := by simp [Ne.symm he]
    simp only [if_neg he, h other, hm, List.count_singleton, beq_iff_eq, Nat.add_zero]

-- The first thread of a ring finds the count of its entries.
theorem Tallied.get?_head (h : Tallied (thread :: ring) counts) :
    counts.get? thread = some (ring.count thread + 1) := by
  rw [h thread, if_pos List.mem_cons_self, List.count_cons_self]

theorem Tallied.release (h : Tallied (thread :: ring) counts) :
    Tallied ring (release counts thread) := by
  intro other
  have hother : ∀ other, thread ≠ other →
      counts.get? other = if other ∈ ring then some (ring.count other) else none := by
    intro other hne
    have hm : other ∈ thread :: ring ↔ other ∈ ring := by simp [Ne.symm hne]
    simp only [h other, hm, List.count_cons_of_ne hne]
  simp only [RecentThreads.release, h.get?_head, Nat.add_sub_cancel, List.count_eq_zero]
  by_cases he : thread = other
  · subst he
    by_cases hm : thread ∈ ring
    · simp [hm]
    · simp [hm, Table.get?_erase]
  · split
    · rw [Table.get?_erase, if_neg he, hother other he]
    · rw [Table.get?_insert, if_neg he, hother other he]

-- What is left of a ring is its end.
theorem evict_fst (capacity : Nat) (ring : List ThreadId) (counts : Table ThreadId Nat) :
    (evict capacity ring counts).1 = ring.rtake capacity := by
  induction ring generalizing counts with
  | nil => simp [evict]
  | cons thread rest ih =>
      unfold evict
      by_cases hfull : capacity < (thread :: rest).length
      · have hdrop : (thread :: rest).length - capacity = rest.length - capacity + 1 := by
          rw [List.length_cons] at hfull ⊢
          omega
        rw [if_pos hfull, ih, List.rtake, List.rtake, hdrop, List.drop_succ_cons]
      · have hdrop : (thread :: rest).length - capacity = 0 := by omega
        rw [if_neg hfull, List.rtake, hdrop, List.drop_zero]

-- Those that leave stand before those that stay.
theorem leavers_append (capacity : Nat) (ring : List ThreadId) (counts : Table ThreadId Nat) :
    (leavers capacity ring counts).map Prod.fst ++ (evict capacity ring counts).1 = ring := by
  induction ring generalizing counts with
  | nil => rfl
  | cons thread rest ih =>
      unfold evict leavers
      by_cases hfull : capacity < (thread :: rest).length
      · simp only [if_pos hfull, List.map_cons, List.cons_append, ih]
      · simp only [if_neg hfull, List.map_nil, List.nil_append]

-- Every thread that leaves finds a count, which is not zero, and the counts stay those of the ring.
theorem Tallied.evict (h : Tallied ring counts) (capacity : Nat) :
    Tallied (evict capacity ring counts).1 (evict capacity ring counts).2 ∧
      ∀ entry ∈ leavers capacity ring counts, ∃ count, entry.2 = some (count + 1) := by
  induction ring generalizing counts with
  | nil => exact ⟨h, by simp [leavers]⟩
  | cons thread rest ih =>
      unfold RecentThreads.evict leavers
      by_cases hfull : capacity < (thread :: rest).length
      · simp only [if_pos hfull]
        obtain ⟨htallied, hfound⟩ := ih h.release
        refine ⟨htallied, ?_⟩
        intro entry hm
        rcases List.mem_cons.mp hm with rfl | hm
        · exact ⟨_, h.get?_head⟩
        · exact hfound entry hm
      · simp only [if_neg hfull]
        exact ⟨h, by simp⟩

-- The threads with a count are those in the ring.
theorem Tallied.size (h : Tallied ring counts) : counts.size = ring.toFinset.card := by
  have hkeys : counts.keys.toFinset = ring.toFinset := by
    ext thread
    rw [List.mem_toFinset, List.mem_toFinset, ← Table.get?_isSome_iff, h thread]
    by_cases hm : thread ∈ ring <;> simp [hm]
  rw [← hkeys, List.toFinset_card_of_nodup counts.keys_nodup]
  simp [Table.size, Table.keys]

end

-- The ring is the end of the list of callers, and its counts are right.
structure Holds (capacity : Nat) (threads : List ThreadId) (history : RecentThreads) : Prop where
  capacity_eq : history.capacity = max capacity 1
  ring_eq : history.ring = threads.rtake (max capacity 1)
  tallied : Tallied history.ring history.counts

theorem holds_ofCapacity (capacity : Nat) : Holds capacity [] (ofCapacity capacity) where
  capacity_eq := rfl
  ring_eq := by simp [ofCapacity]
  tallied := Tallied.empty

section

variable {capacity : Nat} {threads : List ThreadId} {history : RecentThreads}

theorem Holds.size_eq (h : Holds capacity threads history) :
    history.size = min threads.length (max capacity 1) := by
  rw [size, h.ring_eq, List.rtake, List.length_drop]
  omega

-- One call more keeps the ring the end of the list.
theorem Holds.push (h : Holds capacity threads history) (thread : ThreadId) :
    Holds capacity (threads ++ [thread]) (history.push thread).2 where
  capacity_eq := h.capacity_eq
  ring_eq := by
    simp only [RecentThreads.push, evict_fst, h.capacity_eq, h.ring_eq]
    exact rtake_concat_rtake threads thread (by omega)
  tallied := ((h.tallied.enter thread).evict history.capacity).1

-- The answer to a call is the number of different threads in the ring after it.
theorem Holds.answer (h : Holds capacity threads history) (thread : ThreadId) :
    (history.push thread).1 = ((threads ++ [thread]).rtake (max capacity 1)).toFinset.card := by
  have hnext := h.push thread
  rw [← hnext.ring_eq]
  exact hnext.tallied.size

end

theorem pushAll_concat (capacity : Nat) (threads : List ThreadId) (thread : ThreadId) :
    pushAll capacity (threads ++ [thread]) = pushed (pushAll capacity threads) thread := by
  rw [pushAll, List.foldl_append, List.foldl_cons, List.foldl_nil, ← pushAll]

theorem pushAll_holds (capacity : Nat) (threads : List ThreadId) :
    Holds capacity threads (pushAll capacity threads).2 := by
  induction threads using List.reverseRecOn with
  | nil => exact holds_ofCapacity capacity
  | append_singleton threads thread ih =>
      rw [pushAll_concat]
      exact ih.push thread

-- As many calls count as there are, and as the ring can hold.
theorem rtake_min_length (threads : List ThreadId) (capacity : Nat) :
    threads.rtake (min threads.length capacity) = threads.rtake capacity := by
  have hdrop : threads.length - min threads.length capacity = threads.length - capacity := by
    omega
  rw [List.rtake, List.rtake, hdrop]

theorem inits_concat_tail (threads : List ThreadId) (thread : ThreadId) :
    (threads ++ [thread]).inits.tail = threads.inits.tail ++ [threads ++ [thread]] := by
  cases threads with
  | nil => rfl
  | cons first rest => simp [List.inits_append]

-- Each call is answered by the number of different threads among the last ones. There are as many
-- of them as there were calls, but not more than the ring can hold, which is also what the ring
-- has. Whoever calls next, the oldest entries leave, and each of them finds a count to be taken
-- from.
theorem distinct_threads_counted (capacity : Nat) (threads : List ThreadId) :
    let history := (pushAll capacity threads).2
    (pushAll capacity threads).1 = threads.inits.tail.map (fun calls =>
        (calls.rtake (min calls.length (max capacity 1))).toFinset.card) ∧
      history.size = min threads.length (max capacity 1) ∧
      ∀ thread,
        (history.leaversAt thread).map Prod.fst ++ (history.push thread).2.ring =
          history.ring ++ [thread] ∧
        ∀ entry ∈ history.leaversAt thread, ∃ count, entry.2 = some (count + 1) := by
  intro history
  have hholds : Holds capacity threads history := pushAll_holds capacity threads
  refine ⟨?_, hholds.size_eq, fun thread => ⟨leavers_append _ _ _, ?_⟩⟩
  · clear hholds
    induction threads using List.reverseRecOn with
    | nil => rfl
    | append_singleton threads thread ih =>
        rw [pushAll_concat, inits_concat_tail, List.map_append, pushed, ih]
        simp only [List.map_singleton, rtake_min_length,
          (pushAll_holds capacity threads).answer thread]
  · exact ((hholds.tallied.enter thread).evict history.capacity).2

-- A thread whose call drives its own older entry out, while it has another one.
theorem distinct_threads_counted_of_own :
    let history := (pushAll 3 [1, 1, 2]).2
    (pushAll 3 [1, 1, 2]).1 = [1, 1, 2] ∧ history.leaversAt 1 = [(1, some 3)] ∧
      ∃ count, some 3 = some (count + 1) := by
  intro history
  obtain ⟨hanswers, -, hleavers⟩ := distinct_threads_counted 3 [1, 1, 2]
  have hleaver : history.leaversAt 1 = [(1, some 3)] := by decide +kernel
  refine ⟨?_, hleaver, (hleavers 1).2 (1, some 3) ?_⟩
  · rw [hanswers]
    decide +kernel
  · rw [hleaver]
    exact List.mem_singleton_self _

end RecentThreads

end DelayInjection
