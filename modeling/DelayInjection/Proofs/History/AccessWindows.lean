import Mathlib.Data.Finset.Card
import Mathlib.Data.List.DropRight
import DelayInjection.Proofs.History.AccessLog

-- What the access log holds after any accesses and freed objects. The queue of a group and an
-- object is the end of the accesses of the group to the object since it was last freed, and there
-- is a queue exactly where there was such an access.

namespace DelayInjection

namespace AccessLog

inductive Request where
  | push (group : String) (point : Point)
  | forget (object : ObjectId)

inductive Answer where
  | previous (points : List Point)
  | dropped (queues : Nat)

def serve (log : AccessLog) : Request → Answer × AccessLog
  | .push group point =>
      let (points, log) := log.push group point
      (.previous points, log)
  | .forget object =>
      let (queues, log) := log.forget object
      (.dropped queues, log)

def after (window : Nat) (requests : List Request) : AccessLog :=
  requests.foldl (fun log request => (log.serve request).2) (ofWindow window)

namespace Request

def object : Request → ObjectId
  | push _ point => point.object
  | forget object => object

def key? : Request → Option (String × ObjectId)
  | push group point => some (group, point.object)
  | forget _ => none

def forgets (object : ObjectId) : Request → Bool
  | push _ _ => false
  | forget other => other == object

def access? (object : ObjectId) : Request → Option (String × Point)
  | push group point => if point.object = object then some (group, point) else none
  | forget _ => none

end Request

-- The accesses to an object since it was last freed, with their groups.
def accessesSince (requests : List Request) (object : ObjectId) : List (String × Point) :=
  (requests.rtakeWhile (!·.forgets object)).filterMap (·.access? object)

def pointsSince (requests : List Request) (group : String) (object : ObjectId) : List Point :=
  ((accessesSince requests object).filter (·.1 == group)).map Prod.snd

def groupsSince (requests : List Request) (object : ObjectId) : Finset String :=
  ((accessesSince requests object).map Prod.fst).toFinset

-- The groups and objects with an access since the object was last freed.
def keysSince (requests : List Request) : Finset (String × ObjectId) :=
  (requests.filterMap Request.key?).toFinset.filter fun key => key.1 ∈ groupsSince requests key.2

section

variable (requests : List Request) (object : ObjectId)

theorem accessesSince_concat (request : Request) :
    accessesSince (requests ++ [request]) object =
      if request.forgets object then []
      else accessesSince requests object ++ (request.access? object).toList := by
  rw [accessesSince, List.rtakeWhile_concat]
  cases request.forgets object with
  | true => rfl
  | false =>
      cases h : request.access? object with
      | none => simp [accessesSince, h]
      | some access => simp [accessesSince, h]

theorem accessesSince_push (group : String) (point : Point) :
    accessesSince (requests ++ [.push group point]) object =
      if point.object = object then accessesSince requests object ++ [(group, point)]
      else accessesSince requests object := by
  rw [accessesSince_concat]
  by_cases h : point.object = object <;> simp [Request.forgets, Request.access?, h]

theorem accessesSince_forget (freed : ObjectId) :
    accessesSince (requests ++ [.forget freed]) object =
      if freed = object then [] else accessesSince requests object := by
  rw [accessesSince_concat]
  by_cases h : freed = object <;> simp [Request.forgets, Request.access?, h]

theorem pointsSince_push (group other : String) (point : Point) :
    pointsSince (requests ++ [.push group point]) other object =
      if group = other ∧ point.object = object then pointsSince requests other object ++ [point]
      else pointsSince requests other object := by
  rw [pointsSince, accessesSince_push]
  by_cases hobject : point.object = object
  · by_cases hgroup : group = other
    · simp [hobject, hgroup, pointsSince]
    · simp [hobject, hgroup, pointsSince]
  · simp [hobject, pointsSince]

theorem pointsSince_forget (freed : ObjectId) (group : String) :
    pointsSince (requests ++ [.forget freed]) group object =
      if freed = object then [] else pointsSince requests group object := by
  rw [pointsSince, accessesSince_forget]
  split
  · rfl
  · rfl

-- What is known of an object does not depend on whether another one was freed.
theorem accessesSince_freed (between : List Request) {freed : ObjectId} (h : object ≠ freed) :
    accessesSince (requests ++ .forget freed :: between) object =
      accessesSince (requests ++ between) object := by
  induction between using List.reverseRecOn with
  | nil => rw [accessesSince_forget, if_neg h.symm, List.append_nil]
  | append_singleton between request ih =>
      rw [← List.cons_append, ← List.append_assoc, ← List.append_assoc, accessesSince_concat,
        accessesSince_concat, ih]

theorem mem_groupsSince_iff (group : String) :
    group ∈ groupsSince requests object ↔
      ∃ point, (group, point) ∈ accessesSince requests object := by
  simp [groupsSince]

-- A group with an access to an object pushed it at some time.
theorem mem_keysSince_iff (key : String × ObjectId) :
    key ∈ keysSince requests ↔ key.1 ∈ groupsSince requests key.2 := by
  rw [keysSince, Finset.mem_filter, and_iff_right_iff_imp, mem_groupsSince_iff]
  rintro ⟨point, hm⟩
  obtain ⟨request, hrequest, haccess⟩ := List.mem_filterMap.mp hm
  rw [List.mem_toFinset, List.mem_filterMap]
  refine ⟨request, (List.rtakeWhile_suffix _ _).subset hrequest, ?_⟩
  cases request with
  | forget freed => cases haccess
  | push group pushed =>
      simp only [Request.access?, Option.ite_none_right_eq_some, Option.some.injEq,
        Prod.mk.injEq] at haccess
      obtain ⟨hobject, hgroup, -⟩ := haccess
      rw [Request.key?, hobject, hgroup]

end

-- The log holds the ends of the accesses since the objects were last freed.
structure Windowed (window : Nat) (requests : List Request) (log : AccessLog) : Prop where
  window_eq : log.window = max window 1
  queue_eq : ∀ group object,
    log.queue group object = (pointsSince requests group object).rtake (max window 1)
  mem_keys_iff : ∀ group object,
    (group, object) ∈ log.queues.keys ↔ group ∈ groupsSince requests object

theorem windowed_ofWindow (window : Nat) : Windowed window [] (ofWindow window) where
  window_eq := rfl
  queue_eq group object := by simp [queue, ofWindow, pointsSince, accessesSince]
  mem_keys_iff group object := by
    simp [ofWindow, Table.keys, Table.empty, groupsSince, accessesSince]

section

variable {window : Nat} {requests : List Request} {log : AccessLog}

theorem Windowed.push (h : Windowed window requests log) (group : String) (point : Point) :
    Windowed window (requests ++ [.push group point]) (log.push group point).2 where
  window_eq := h.window_eq
  queue_eq other object := by
    rw [queue_push, h.window_eq, h.queue_eq, h.queue_eq, pointsSince_push]
    by_cases hown : group = other ∧ point.object = object
    · obtain ⟨rfl, rfl⟩ := hown
      rw [if_pos ⟨rfl, rfl⟩, if_pos ⟨rfl, rfl⟩]
      exact rtake_concat_rtake _ _ (by omega)
    · rw [if_neg hown, if_neg hown]
  mem_keys_iff other object := by
    have hkeys : (other, object) ∈ (log.push group point).2.queues.keys ↔
        (other, object) ∈ log.queues.keys ∨ (other, object) = (group, point.object) := by
      simp only [AccessLog.push, Table.keys_insert]
      split
      · rename_i hm
        refine ⟨.inl, ?_⟩
        rintro (hold | hnew)
        · exact hold
        · exact hnew ▸ hm
      · simp
    rw [hkeys, h.mem_keys_iff, mem_groupsSince_iff, mem_groupsSince_iff, accessesSince_push]
    by_cases hobject : point.object = object
    · subst hobject
      simp only [Prod.mk.injEq, and_true, if_true, List.mem_append, List.mem_singleton,
        exists_or, exists_and_left, exists_eq]
    · have hne : ¬ object = point.object := fun he => hobject he.symm
      simp [hobject, hne]

theorem Windowed.forget (h : Windowed window requests log) (freed : ObjectId) :
    Windowed window (requests ++ [.forget freed]) (log.forget freed).2 where
  window_eq := h.window_eq
  queue_eq group object := by
    rw [queue_forget, h.queue_eq, pointsSince_forget]
    by_cases he : object = freed
    · simp [he]
    · simp [he, Ne.symm he]
  mem_keys_iff group object := by
    have hkeys : (group, object) ∈ (log.forget freed).2.queues.keys ↔
        (group, object) ∈ log.queues.keys ∧ object ≠ freed := by
      rw [← Table.get?_isSome_iff, ← Table.get?_isSome_iff, AccessLog.forget,
        Table.get?_filterKeys]
      by_cases he : object = freed <;> simp [he]
    rw [hkeys, h.mem_keys_iff, mem_groupsSince_iff, mem_groupsSince_iff, accessesSince_forget]
    by_cases he : object = freed
    · simp [he]
    · simp [he, Ne.symm he]

theorem Windowed.serve (h : Windowed window requests log) (request : Request) :
    Windowed window (requests ++ [request]) (log.serve request).2 := by
  cases request with
  | push group point => exact h.push group point
  | forget freed => exact h.forget freed

theorem Windowed.toFinset_keys (h : Windowed window requests log) :
    log.queues.keys.toFinset = keysSince requests := by
  ext key
  rw [List.mem_toFinset, h.mem_keys_iff, mem_keysSince_iff]

theorem Windowed.size_eq (h : Windowed window requests log) :
    log.size = (keysSince requests).card := by
  rw [← h.toFinset_keys, List.toFinset_card_of_nodup log.queues.keys_nodup]
  simp [size, Table.size, Table.keys]

-- A freed object loses one queue for every group with an access to it.
theorem Windowed.forget_fst (h : Windowed window requests log) (object : ObjectId) :
    (log.forget object).1 = (groupsSince requests object).card := by
  have hcut : log.queues.size =
      (log.queues.filterKeys fun key => key.2 != object).size +
        (log.queues.keys.filter fun key => key.2 == object).length := by
    have hsplit := List.length_eq_length_filter_add
      (l := log.queues.entries) fun entry => entry.1.2 != object
    simpa [Table.size, Table.filterKeys, Table.keys, List.filter_map, Function.comp_def,
      bne] using hsplit
  have hgone : (log.queues.keys.filter fun key => key.2 == object).toFinset =
      (groupsSince requests object).image (·, object) := by
    ext ⟨group, other⟩
    simp only [List.mem_toFinset, List.mem_filter, h.mem_keys_iff, beq_iff_eq, Finset.mem_image,
      Prod.mk.injEq]
    constructor
    · rintro ⟨hm, rfl⟩
      exact ⟨group, hm, rfl, rfl⟩
    · rintro ⟨_, hm, rfl, rfl⟩
      exact ⟨hm, rfl⟩
  have hcard := congrArg Finset.card hgone
  rw [List.toFinset_card_of_nodup (log.queues.keys_nodup.filter _),
    Finset.card_image_of_injective _ (Prod.mk_left_injective object)] at hcard
  simp only [AccessLog.forget]
  omega

end

theorem after_holds (window : Nat) (requests : List Request) :
    Windowed window requests (after window requests) := by
  induction requests using List.reverseRecOn with
  | nil => exact windowed_ofWindow window
  | append_singleton requests request ih =>
      rw [after, List.foldl_append, List.foldl_cons, List.foldl_nil, ← after]
      exact ih.serve request

-- The answer that the accesses since the object was last freed determine.
def answerFrom (window : Nat) (requests : List Request) : Request → Answer
  | .push group point => .previous ((pointsSince requests group point.object).rtake (max window 1))
  | .forget object => .dropped (groupsSince requests object).card

theorem serve_fst (window : Nat) (requests : List Request) (request : Request) :
    ((after window requests).serve request).1 = answerFrom window requests request := by
  have h := after_holds window requests
  cases request with
  | push group point => exact congrArg Answer.previous (h.queue_eq group point.object)
  | forget object => exact congrArg Answer.dropped (h.forget_fst object)

theorem answerFrom_freed (window : Nat) (requests between : List Request) {freed : ObjectId}
    {request : Request} (h : request.object ≠ freed) :
    answerFrom window (requests ++ .forget freed :: between) request =
      answerFrom window (requests ++ between) request := by
  have hsame := accessesSince_freed requests request.object between h
  cases request with
  | push group point =>
      have hpoint : accessesSince (requests ++ .forget freed :: between) point.object =
          accessesSince (requests ++ between) point.object := hsame
      simp only [answerFrom, pointsSince, hpoint]
  | forget object =>
      have hobject : accessesSince (requests ++ .forget freed :: between) object =
          accessesSince (requests ++ between) object := hsame
      simp only [answerFrom, groupsSince, hobject]

-- After any requests an access is answered by the last accesses of its group to its object since
-- the object was last freed, oldest first, and a freed object by the number of groups with such
-- accesses. As many queues are kept as there are groups and objects with them. Whether an object
-- was freed at some time changes no answer to a request for another object.
theorem windows_since_freed (window : Nat) (requests : List Request) :
    let log := after window requests
    (∀ group point, (log.push group point).1 =
        (pointsSince requests group point.object).rtake (max window 1)) ∧
      (∀ object, (log.forget object).1 = (groupsSince requests object).card) ∧
      log.size = (keysSince requests).card ∧
      ∀ (between : List Request) (freed : ObjectId) (request : Request),
        request.object ≠ freed →
          ((after window (requests ++ .forget freed :: between)).serve request).1 =
            ((after window (requests ++ between)).serve request).1 := by
  intro log
  have hlog : Windowed window requests log := after_holds window requests
  refine ⟨?_, hlog.forget_fst, hlog.size_eq, ?_⟩
  · intro group point
    exact hlog.queue_eq group point.object
  · intro between freed request h
    rw [serve_fst, serve_fst, answerFrom_freed window requests between h]

-- Two groups with accesses to one object, one of them to another object as well.
namespace Sample

def pointOn (object : ObjectId) (offset : Int32) : Point :=
  { callee := "List.Add", caller := "Worker", offset, thread := 1, object }

def requests : List Request :=
  [.push "List" (pointOn 1 1), .push "List" (pointOn 9 7), .push "Dictionary" (pointOn 1 2),
    .push "List" (pointOn 1 3), .push "List" (pointOn 1 4)]

end Sample

theorem windows_since_freed_of_two :
    let log := after 2 Sample.requests
    (log.push "List" (Sample.pointOn 1 5)).1 = [Sample.pointOn 1 3, Sample.pointOn 1 4] ∧
      (log.forget 1).1 = 2 ∧ log.size = 3 ∧
      (Request.push "List" (Sample.pointOn 9 8)).object ≠ 1 ∧
      ((after 2 (Sample.requests ++ [.forget 1])).serve (.push "List" (Sample.pointOn 9 8))).1 =
        (log.serve (.push "List" (Sample.pointOn 9 8))).1 := by
  intro log
  obtain ⟨hpush, hforget, hsize, hfreed⟩ := windows_since_freed 2 Sample.requests
  have hother : (Request.push "List" (Sample.pointOn 9 8)).object ≠ 1 := by decide
  refine ⟨?_, ?_, ?_, hother, ?_⟩
  · rw [hpush]
    decide +kernel
  · rw [hforget]
    decide +kernel
  · rw [hsize]
    decide +kernel
  · have hanswer := hfreed [] 1 _ hother
    rwa [List.append_nil] at hanswer

end AccessLog

end DelayInjection
